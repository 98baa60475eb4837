import QueryProjection.Document.Lexeme
import QueryProjection.Text.Position

/-!
# Syntax errors

What can be wrong with a document, apart from where.  The grammar works on lexemes alone
and locates a fault by the number of lexemes that remain; only the outermost functions turn
that number into a line and a column.
-/

namespace QueryProjection

/-- What the grammar asks for at a place. -/
inductive Expectation where
  | name
  | endOfText
  | mark (mark : Punctuator)
  | keyword (word : String)
  deriving DecidableEq, Repr

def Expectation.describe : Expectation → String
  | .name => "Name"
  | .endOfText => "<EOF>"
  | .mark m => s!"'{m.text}'"
  | .keyword word => s!"'{word}'"

/-- Why a text is not a document.  The lexeme found is `none` at the end of the text. -/
inductive SyntaxFault where
  | lexical (fault : LexicalFault)
  | expected (what : Expectation) (found : Option Lexeme)
  | unexpected (found : Option Lexeme)
  | variableInConstant (name : String)
  | descriptionOnShorthand
  | descriptionElsewhere
  | reservedEnumValue (found : Lexeme)
  deriving DecidableEq, Repr

def SyntaxFault.message : SyntaxFault → String
  | .lexical fault => fault.message
  | .expected what found => s!"Expected {what.describe}, found {describeNext found}."
  | .unexpected found => s!"Unexpected {describeNext found}."
  | .variableInConstant name => s!"Unexpected variable '${name}' in constant value."
  | .descriptionOnShorthand =>
      "Unexpected description, descriptions are not supported on shorthand queries."
  | .descriptionElsewhere =>
      "Unexpected description, only GraphQL definitions support descriptions."
  | .reservedEnumValue found =>
      s!"{found.describe} is reserved and cannot be used for an enum value."

structure SyntaxError where
  fault : SyntaxFault
  place : Text.Position
  deriving DecidableEq, Repr

/-- The message of a syntax error, without its place. -/
def SyntaxError.message (e : SyntaxError) : String := "Syntax Error: " ++ e.fault.message

end QueryProjection
