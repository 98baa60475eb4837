import QueryProjection.Document.Scan
import QueryProjection.Document.TypeSystems

/-!
# From texts to documents

A document is a sequence of definitions, told apart by their first words.  Reading a text
cuts it into lexemes, reads those, and turns the place of a fault, which the grammar gives
as a number of remaining lexemes, into a line and a column.
-/

namespace QueryProjection.Grammar

def operationWords : List String := ["query", "mutation", "subscription"]

/-- A definition.  A description in front of it moves the deciding word one place on. -/
def definition : Reader Definition := do
  if ← nextIs .braceOpen then shorthandQuery
  else
    let here ← get
    let described := match here.head? with
      | some (.text _ _) => true
      | _ => false
    let deciding ← if described then lookAhead else pure here
    match deciding.head? with
    | some (.mark .braceOpen) => failAt .descriptionOnShorthand here
    | some (.name word) =>
        if typeSystemWords.contains word then typeSystem word
        else if operationWords.contains word then operation
        else if word = "fragment" then fragment
        else if described then failAt .descriptionElsewhere here
        else if word = "extend" then typeExtension
        else failAt (.unexpected (some (.name word))) deciding
    | found => failAt (.unexpected found) deciding

/-- Definitions up to the end of the text, in at most so many rounds. -/
def definitionsWithin : Nat → Reader (List Definition)
  | 0 => return []
  | rounds + 1 => do
    match ← next with
    | none => return []
    | some _ =>
        let first ← definition
        let others ← definitionsWithin rounds
        return first :: others

def document : Reader Document := do
  let first ← definition
  let others ← definitionsWithin (← get).length
  return { definitions := first :: others }

/-- A value that is all there is. -/
def loneLiteral : Reader Literal := do
  let value ← literal false
  endOfText
  return value

def run {α : Type} (reader : Reader α) (lexemes : List Lexeme) : Except Fault α := do
  let checked ← checkNext lexemes
  return (← reader.run checked).1

/-! ### Places -/

/-- The place of a fault: that of the token which the remaining lexemes start with, or the
end of the text. -/
def place (text : List Char) (tokens : List Scan.Token) (remaining : Nat) : Text.Position :=
  let charactersLeft := match (tokens.drop (tokens.length - remaining)).head? with
    | some token => token.remaining
    | none => 0
  Text.Position.after (Text.unifyBreaks (text.take (text.length - charactersLeft)))

def readText {α : Type} (reader : Reader α) (text : List Char) : Except SyntaxError α :=
  let tokens := Scan.tokens text
  match run reader (tokens.map Scan.Token.lexeme) with
  | .ok value => .ok value
  | .error found => .error { fault := found.fault, place := place text tokens found.remaining }

end QueryProjection.Grammar

namespace QueryProjection

def Document.read (text : List Char) : Except SyntaxError Document :=
  Grammar.readText Grammar.document text

def Literal.read (text : List Char) : Except SyntaxError Literal :=
  Grammar.readText Grammar.loneLiteral text

end QueryProjection
