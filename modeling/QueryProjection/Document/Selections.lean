import QueryProjection.Document.Basic
import QueryProjection.Document.Reader

/-!
# The grammar of operations and fragments

Values, selections and types, and the definitions that are made of them.  Nesting is
bounded by the number of lexemes that remain, since every level takes at least one.
-/

namespace QueryProjection.Grammar

/-! ### Values -/

def namedLiteral (word : String) : Literal :=
  if word = "true" then .bool true
  else if word = "false" then .bool false
  else if word = "null" then .null
  else .enum word

/-- A variable, with the dollar sign next.  Constants hold none. -/
def variableLiteral (constant : Bool) : Reader Literal := do
  let lexemes ← get
  require .dollar
  if constant then
    match ← next with
    | some (.name value) => failAt (.variableInConstant value) lexemes
    | _ => failAt (.unexpected lexemes.head?) lexemes
  else return .variable (← name)

def literalWithin (constant : Bool) : Nat → Reader Literal
  | 0 => unexpected
  | depth + 1 => do
    match ← next with
    | some (.mark .bracketOpen) =>
        return .list (← anyBetween .bracketOpen (literalWithin constant depth) .bracketClose)
    | some (.mark .braceOpen) =>
        let field : Reader (String × Literal) := do
          let fieldName ← name
          require .colon
          return (fieldName, ← literalWithin constant depth)
        return .object (← anyBetween .braceOpen field .braceClose)
    | some (.mark .dollar) => variableLiteral constant
    | some (.int numeral) =>
        advance
        return .int numeral
    | some (.float numeral) =>
        advance
        return .float numeral
    | some (.text value block) =>
        advance
        return .text value block
    | some (.name word) =>
        advance
        return namedLiteral word
    | _ => unexpected

/-- A value; a constant one holds no variables. -/
def literal (constant : Bool) : Reader Literal := do
  literalWithin constant ((← get).length + 1)

def argument (constant : Bool) : Reader Argument := do
  let argumentName ← name
  require .colon
  return (argumentName, ← literal constant)

def arguments (constant : Bool) : Reader (List Argument) :=
  optionalBetween .parenOpen (argument constant) .parenClose

def directive (constant : Bool) : Reader Directive := do
  require .at
  let directiveName ← name
  return { name := directiveName, arguments := ← arguments constant }

def directives (constant : Bool) : Reader (List Directive) :=
  startingWith .at (directive constant)

/-! ### Selections -/

/-- The name of a fragment.  No lexeme that reads `on` can be one. -/
def fragmentName : Reader String := do
  if (← next).bind Lexeme.value? = some "on" then unexpected else name

/-- A field, where the nested selection set is read by the given reader. -/
def field (selectionSet : Reader (List Selection)) : Reader Selection := do
  let first ← name
  let second ← if ← accept .colon then some <$> name else pure none
  let fieldArguments ← arguments false
  let fieldDirectives ← directives false
  let nested ← if ← nextIs .braceOpen then some <$> selectionSet else pure none
  match second with
  | some fieldName => return .field (some first) fieldName fieldArguments fieldDirectives nested
  | none => return .field none first fieldArguments fieldDirectives nested

def spread (selectionSet : Reader (List Selection)) : Reader Selection := do
  require .spread
  if ← acceptWord "on" then
    let condition ← name
    let spreadDirectives ← directives false
    return .inline (some condition) spreadDirectives (← selectionSet)
  else
    match ← next with
    | some (.name _) =>
        let fragment ← fragmentName
        return .spread fragment (← directives false)
    | _ =>
        let spreadDirectives ← directives false
        return .inline none spreadDirectives (← selectionSet)

def selectionSetWithin : Nat → Reader (List Selection)
  | 0 => unexpected
  | depth + 1 =>
    let selection : Reader Selection := do
      if ← nextIs .spread then spread (selectionSetWithin depth)
      else field (selectionSetWithin depth)
    someBetween .braceOpen selection .braceClose

def selectionSet : Reader (List Selection) := do
  selectionSetWithin ((← get).length + 1)

/-! ### Types and descriptions -/

def typeReferenceWithin : Nat → Reader TypeReference
  | 0 => unexpected
  | depth + 1 => do
    let inner ← if ← accept .bracketOpen then do
        let item ← typeReferenceWithin depth
        require .bracketClose
        pure (TypeReference.list item)
      else TypeReference.named <$> name
    if ← accept .bang then return .nonNull inner else return inner

def typeReference : Reader TypeReference := do
  typeReferenceWithin ((← get).length + 1)

def description : Reader (Option Description) := do
  match ← next with
  | some (.text value block) =>
      advance
      return some { value, block }
  | _ => return none

def defaultValue : Reader (Option Literal) := do
  if ← accept .equals then some <$> literal true else return none

/-! ### Operations and fragments -/

def operationKind : Reader OperationKind := do
  let lexemes ← get
  let word ← name
  match OperationKind.ofKeyword? word with
  | some kind => return kind
  | none => failAt (.unexpected lexemes.head?) lexemes

def variableDefinition : Reader VariableDefinition := do
  let text ← description
  require .dollar
  let variableName ← name
  require .colon
  let type ← typeReference
  let default ← defaultValue
  return { description := text, name := variableName, type, default,
           directives := ← directives true }

def shorthandQuery : Reader Definition := do
  return .operation
    { description := none, kind := .query, name := none, variableDefinitions := [],
      directives := [], selections := ← selectionSet }

def operation : Reader Definition := do
  let text ← description
  let kind ← operationKind
  let operationName ← match ← next with
    | some (.name _) => some <$> name
    | _ => pure none
  let variableDefinitions ← optionalBetween .parenOpen variableDefinition .parenClose
  let operationDirectives ← directives false
  return .operation
    { description := text, kind, name := operationName, variableDefinitions,
      directives := operationDirectives, selections := ← selectionSet }

def fragment : Reader Definition := do
  let text ← description
  requireWord "fragment"
  let fragmentTitle ← fragmentName
  requireWord "on"
  let condition ← name
  let fragmentDirectives ← directives false
  return .fragment
    { description := text, name := fragmentTitle, condition,
      directives := fragmentDirectives, selections := ← selectionSet }

end QueryProjection.Grammar
