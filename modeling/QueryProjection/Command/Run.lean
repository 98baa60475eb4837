import QueryProjection.Aggregate
import QueryProjection.Command.Arguments
import QueryProjection.Document.Grammar
import QueryProjection.Expansion
import QueryProjection.Json.Reader
import QueryProjection.Json.Writer

/-!
# The command

The command reads a query document and writes the projection of each root field of one of
its operations, by response name, as one JSON object.  The lines of the document are joined
with a blank, so every line but the first is read with one blank in front.  Where the arguments
ask for help, the document is not looked at.
-/

namespace QueryProjection.Command

/-- Why there is nothing to write although the arguments are in order. -/
inductive RunFault where
  | bindingsWithoutText
  | notADocument (found : SyntaxError)
  | noOperation (fault : OperationFault)
  | compilation (fault : Fault)
  deriving DecidableEq, Repr

inductive Ending where
  | written (text : String)
  | helped
  | misused (found : UsageError)
  | failed (fault : RunFault)
  deriving DecidableEq, Repr

def Ending.ofHalt : Halt → Ending
  | .helped => .helped
  | .refused found => .misused found

structure Run where
  ending : Ending
  notices : List Notice
  deriving DecidableEq, Repr

/-- The text with a blank in front of every line but the first. -/
def joinLines : List Char → List Char
  | [] => []
  | [c] => [c]
  | c :: d :: rest =>
      if c = '\n' then '\n' :: ' ' :: joinLines (d :: rest) else c :: joinLines (d :: rest)

def readBindings : Given → Except Ending Bindings
  | .emptyList => .error (.failed .bindingsWithoutText)
  | .text written =>
      let text := written.toList
      match Json.read text with
      | .ok (.object fields) => .ok fields
      | .ok _ => .error (.misused .bindingsNotObject)
      | .error (.malformed complaint remaining) =>
          .error (.misused (.bindingsNotJson (complaint.report text remaining)))
      | .error .numeralTooLong => .error (.failed (.compilation .numeralTooLong))

/-- The names to leave out.  An empty list is no name. -/
def readExclusions (given : List Given) : Except Ending (List String) :=
  given.mapM fun
    | .text name => .ok name
    | .emptyList => .error (.failed (.compilation (.noName .list)))

/-- The operation that is asked for.  No operation has an empty list for a name. -/
def chooseOperation (document : Document) (name : Option Given) : Except Ending Operation :=
  let chosen := match name with
    | none => document.operation none
    | some (.text name) => document.operation (some name)
    | some .emptyList => .error (.notNamed "[]")
  chosen.mapError (.failed ∘ .noOperation)

/-- The projection of a field that is selected by some nodes, or its aggregates, as plain data. -/
def projectNodes (aggregate : Bool) (context : Context) (nodes : List Field) : Logged Datum :=
  if aggregate then Aggregate.toDatum <$> Aggregate.ofNodes nodes
  else
    ProjectionParts.toDatum Node.toDatum <$> (compileFields context nodes Memory.empty).logged

/-- The projections of root fields by response name, written over those so far. -/
def projectOver (aggregate : Bool) (context : Context) (before : OrderedMap String Datum) :
    List Field → Logged (OrderedMap String Datum)
  | [] => return before
  | field :: rest => do
      let projected ← projectNodes aggregate context [field]
      projectOver aggregate context (OrderedMap.insert before field.responseName projected) rest

def contextOf (document : Document) (bindings : Bindings) (exclude : List String)
    (strict : Bool) : Context :=
  { fragments := some document.fragments
    bindings := some bindings
    options := { exclude, target := none, strict } }

/-- What the arguments ask for of the text of a document, unless they or the text are at fault. -/
def prepareText (arguments : List String) (text : List Char) :
    Except Ending (Logged (OrderedMap String Datum)) := do
  let settings ← (Settings.ofArguments arguments).mapError .ofHalt
  let bindings ← readBindings settings.bindings
  let document ← (Document.read text).mapError (.failed ∘ .notADocument)
  let exclude ← readExclusions settings.exclude
  let operation ← chooseOperation document settings.operationName
  let context := contextOf document bindings exclude settings.strict
  return projectOver settings.aggregate context [] operation.rootFields

/-- What the arguments ask for of the input, unless they or the input are at fault. -/
def prepare (arguments : List String) (input : String) :
    Except Ending (Logged (OrderedMap String Datum)) :=
  prepareText arguments (joinLines (Text.unifyBreaks input.toList))

def Ending.ofResult : Except Fault (OrderedMap String Datum) → Ending
  | .ok projections => .written (String.ofList (Json.write (.object projections)))
  | .error fault => .failed (.compilation fault)

def run (arguments : List String) (input : String) : Run :=
  match prepare arguments input with
  | .error ending => { ending, notices := [] }
  | .ok projected => { ending := .ofResult projected.result, notices := projected.notices }

/-- Arguments that do not lead to a query are answered before the input is read. -/
theorem run_of_halt {arguments : List String} {halt : Halt}
    (h : Settings.ofArguments arguments = .error halt) (input : String) :
    run arguments input = { ending := .ofHalt halt, notices := [] } := by
  rw [run, prepare, prepareText, h]
  rfl

def programName : String := "graphql-projection"

def UsageError.report (found : UsageError) : String :=
  s!"{programName}: error: {found.message}"

/-- The line that reports a fault, where there is more to say than its kind. -/
def RunFault.message : RunFault → String
  | .bindingsWithoutText => "the JSON object must be str, bytes or bytearray, not list"
  | .notADocument found =>
      let place := found.place
      s!"{found.message} (line {place.line}, column {place.column})"
  | .noOperation fault => fault.message
  | .compilation fault => fault.message?.getD "the query cannot be compiled"

end QueryProjection.Command
