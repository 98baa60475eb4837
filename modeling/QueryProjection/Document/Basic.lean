import QueryProjection.OrderedMap

/-!
# Query documents

A document is a list of definitions: operations, fragments, and definitions or extensions
of a type system.  The tree records what was written and not where, so two texts have
equal documents exactly when they say the same in the same order.  Two constructors stand
apart: `Literal.other` and `Selection.other` hold the name of a kind that this library does
not know.  No text produces them; they stand for nodes made by other means.
-/

namespace QueryProjection

inductive Literal where
  | variable (name : String)
  | int (numeral : String)
  | float (numeral : String)
  | text (value : String) (block : Bool)
  | bool (value : Bool)
  | enum (name : String)
  | null
  | list (items : List Literal)
  | object (fields : List (String × Literal))
  | other (kind : String)
  deriving Inhabited, Repr

abbrev Argument := String × Literal

structure Directive where
  name : String
  arguments : List Argument
  deriving Inhabited, Repr

/-- What a selection set selects.  A spread names a fragment, an inline fragment carries its
own selections, and either may restrict the type it applies to. -/
inductive Selection where
  | field (aliasName : Option String) (name : String) (arguments : List Argument)
      (directives : List Directive) (selectionSet : Option (List Selection))
  | spread (fragment : String) (directives : List Directive)
  | inline (condition : Option String) (directives : List Directive)
      (selections : List Selection)
  | other (name : String)
  deriving Inhabited, Repr

structure Field where
  aliasName : Option String
  name : String
  arguments : List Argument
  directives : List Directive
  selectionSet : Option (List Selection)
  deriving Inhabited, Repr

/-- A type as it is written: a name, wrapped any number of times. -/
inductive TypeReference where
  | named (name : String)
  | list (item : TypeReference)
  | nonNull (type : TypeReference)
  deriving DecidableEq, Inhabited, Repr

def TypeReference.name : TypeReference → String
  | .named name => name
  | .list item => item.name
  | .nonNull type => type.name

structure Description where
  value : String
  block : Bool
  deriving DecidableEq, Inhabited, Repr

inductive OperationKind where
  | query
  | mutation
  | subscription
  deriving DecidableEq, Inhabited, Repr

def OperationKind.keyword : OperationKind → String
  | .query => "query"
  | .mutation => "mutation"
  | .subscription => "subscription"

def OperationKind.ofKeyword? (word : String) : Option OperationKind :=
  [OperationKind.query, .mutation, .subscription].find? fun kind => kind.keyword == word

structure VariableDefinition where
  description : Option Description
  name : String
  type : TypeReference
  default : Option Literal
  directives : List Directive
  deriving Inhabited, Repr

structure Operation where
  description : Option Description
  kind : OperationKind
  name : Option String
  variableDefinitions : List VariableDefinition
  directives : List Directive
  selections : List Selection
  deriving Inhabited, Repr

structure Fragment where
  description : Option Description
  name : String
  condition : String
  directives : List Directive
  selections : List Selection
  deriving Inhabited, Repr

/-! ### Type systems -/

/-- An argument of a field or directive, or a field of an input type. -/
structure InputValue where
  description : Option Description
  name : String
  type : TypeReference
  default : Option Literal
  directives : List Directive
  deriving Inhabited, Repr

structure FieldDefinition where
  description : Option Description
  name : String
  arguments : List InputValue
  type : TypeReference
  directives : List Directive
  deriving Inhabited, Repr

structure EnumValue where
  description : Option Description
  name : String
  directives : List Directive
  deriving Inhabited, Repr

/-- What a definition or an extension says about a type system. -/
inductive TypeSystem where
  | schema (directives : List Directive) (operations : List (OperationKind × String))
  | scalar (name : String) (directives : List Directive)
  | object (name : String) (interfaces : List String) (directives : List Directive)
      (fields : List FieldDefinition)
  | interface (name : String) (interfaces : List String) (directives : List Directive)
      (fields : List FieldDefinition)
  | union (name : String) (directives : List Directive) (members : List String)
  | enum (name : String) (directives : List Directive) (values : List EnumValue)
  | input (name : String) (directives : List Directive) (fields : List InputValue)
  | directive (name : String) (arguments : List InputValue) (repeatable : Bool)
      (locations : List String)
  deriving Inhabited, Repr

inductive Definition where
  | operation (operation : Operation)
  | fragment (fragment : Fragment)
  | typeSystem (description : Option Description) (body : TypeSystem)
  | typeExtension (body : TypeSystem)
  deriving Inhabited, Repr

structure Document where
  definitions : List Definition
  deriving Inhabited, Repr

end QueryProjection
