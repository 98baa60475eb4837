import QueryProjection.Document.Selections

/-!
# The grammar of type systems

Definitions and extensions of schemas, types and directives.  An extension may leave out
most of what a definition needs, but it has to add something.
-/

namespace QueryProjection.Grammar

def inputValue : Reader InputValue := do
  let text ← description
  let valueName ← name
  require .colon
  let type ← typeReference
  let default ← defaultValue
  return { description := text, name := valueName, type, default,
           directives := ← directives true }

def argumentDefinitions : Reader (List InputValue) :=
  optionalBetween .parenOpen inputValue .parenClose

def fieldDefinition : Reader FieldDefinition := do
  let text ← description
  let fieldName ← name
  let fieldArguments ← argumentDefinitions
  require .colon
  let type ← typeReference
  return { description := text, name := fieldName, arguments := fieldArguments, type,
           directives := ← directives true }

def fieldDefinitions : Reader (List FieldDefinition) :=
  optionalBetween .braceOpen fieldDefinition .braceClose

def interfaces : Reader (List String) := do
  if ← acceptWord "implements" then separated .amp name else return []

def unionMembers : Reader (List String) := do
  if ← accept .equals then separated .pipe name else return []

/-- The names that no enumeration value may have. -/
def reservedValues : List String := ["true", "false", "null"]

def enumValue : Reader EnumValue := do
  let text ← description
  let lexemes ← get
  match lexemes.head? with
  | some found =>
      if (found.value?.map fun value => reservedValues.contains value) = some true then
        failAt (.reservedEnumValue found) lexemes
  | none => pure ()
  let valueName ← name
  return { description := text, name := valueName, directives := ← directives true }

def enumValues : Reader (List EnumValue) :=
  optionalBetween .braceOpen enumValue .braceClose

def inputFields : Reader (List InputValue) :=
  optionalBetween .braceOpen inputValue .braceClose

def operationType : Reader (OperationKind × String) := do
  let kind ← operationKind
  require .colon
  return (kind, ← name)

/-- The places where a directive may be allowed.  A definition of a directive is one of them,
though in the grammar it has no room for directives of its own. -/
def directiveLocations : List String :=
  [ "QUERY", "MUTATION", "SUBSCRIPTION", "FIELD", "FRAGMENT_DEFINITION", "FRAGMENT_SPREAD",
    "INLINE_FRAGMENT", "VARIABLE_DEFINITION", "SCHEMA", "SCALAR", "OBJECT",
    "FIELD_DEFINITION", "ARGUMENT_DEFINITION", "INTERFACE", "UNION", "ENUM", "ENUM_VALUE",
    "INPUT_OBJECT", "INPUT_FIELD_DEFINITION", "DIRECTIVE_DEFINITION" ]

def directiveLocation : Reader String := do
  let lexemes ← get
  let word ← name
  if directiveLocations.contains word then return word
  else failAt (.unexpected lexemes.head?) lexemes

/-- What follows a keyword of the type system.  An extension may leave out the operation
types of a schema; a definition may not. -/
def typeSystemBody (extension : Bool) : String → Reader TypeSystem
  | "schema" => do
      let schemaDirectives ← directives true
      let operations ←
        if extension then optionalBetween .braceOpen operationType .braceClose
        else someBetween .braceOpen operationType .braceClose
      return .schema schemaDirectives operations
  | "scalar" => do
      let typeName ← name
      return .scalar typeName (← directives true)
  | "type" => do
      let typeName ← name
      let typeInterfaces ← interfaces
      let typeDirectives ← directives true
      return .object typeName typeInterfaces typeDirectives (← fieldDefinitions)
  | "interface" => do
      let typeName ← name
      let typeInterfaces ← interfaces
      let typeDirectives ← directives true
      return .interface typeName typeInterfaces typeDirectives (← fieldDefinitions)
  | "union" => do
      let typeName ← name
      let typeDirectives ← directives true
      return .union typeName typeDirectives (← unionMembers)
  | "enum" => do
      let typeName ← name
      let typeDirectives ← directives true
      return .enum typeName typeDirectives (← enumValues)
  | "input" => do
      let typeName ← name
      let typeDirectives ← directives true
      return .input typeName typeDirectives (← inputFields)
  | "directive" => do
      require .at
      let directiveName ← name
      let directiveArguments ← argumentDefinitions
      let repeatable ← acceptWord "repeatable"
      requireWord "on"
      return .directive directiveName directiveArguments repeatable
        (← separated .pipe directiveLocation)
  | _ => unexpected

/-- The keywords that start an extension, after `extend`. -/
def extensionWords : List String :=
  ["schema", "scalar", "type", "interface", "union", "enum", "input"]

def typeSystemWords : List String := extensionWords ++ ["directive"]

def typeSystem (word : String) : Reader Definition := do
  let text ← description
  requireWord word
  return .typeSystem text (← typeSystemBody false word)

def addsSomething : TypeSystem → Bool
  | .schema ds operations => !ds.isEmpty || !operations.isEmpty
  | .scalar _ ds => !ds.isEmpty
  | .object _ is ds fields => !is.isEmpty || !ds.isEmpty || !fields.isEmpty
  | .interface _ is ds fields => !is.isEmpty || !ds.isEmpty || !fields.isEmpty
  | .union _ ds members => !ds.isEmpty || !members.isEmpty
  | .enum _ ds values => !ds.isEmpty || !values.isEmpty
  | .input _ ds fields => !ds.isEmpty || !fields.isEmpty
  | .directive _ _ _ _ => true

def typeExtension : Reader Definition := do
  let ahead ← lookAhead
  match ahead.head? with
  | some (.name word) =>
      if extensionWords.contains word then
        requireWord "extend"
        requireWord word
        let body ← typeSystemBody true word
        if addsSomething body then return .typeExtension body else unexpected
      else failAt (.unexpected ahead.head?) ahead
  | found => failAt (.unexpected found) ahead

end QueryProjection.Grammar
