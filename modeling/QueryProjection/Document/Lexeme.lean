/-!
# Lexemes

The words of a query document: punctuators, names, numerals and texts.  A text that is no
sequence of lexemes has one last word, `invalid`, which holds what is wrong with it.  Until
a reader reaches that word the text is as good as any other, so the first complaint about a
document may well come from its grammar.
-/

namespace QueryProjection

inductive Punctuator where
  | bang | dollar | amp | parenOpen | parenClose | spread | colon | equals | at
  | bracketOpen | bracketClose | braceOpen | pipe | braceClose
  deriving DecidableEq, Repr

def Punctuator.text : Punctuator → String
  | .bang => "!"
  | .dollar => "$"
  | .amp => "&"
  | .parenOpen => "("
  | .parenClose => ")"
  | .spread => "..."
  | .colon => ":"
  | .equals => "="
  | .at => "@"
  | .bracketOpen => "["
  | .bracketClose => "]"
  | .braceOpen => "\x7b"
  | .pipe => "|"
  | .braceClose => "\x7d"

def Punctuator.ofChar? : Char → Option Punctuator
  | '!' => some .bang
  | '$' => some .dollar
  | '&' => some .amp
  | '(' => some .parenOpen
  | ')' => some .parenClose
  | ':' => some .colon
  | '=' => some .equals
  | '@' => some .at
  | '[' => some .bracketOpen
  | ']' => some .bracketClose
  | '\x7b' => some .braceOpen
  | '|' => some .pipe
  | '\x7d' => some .braceClose
  | _ => none

inductive LexicalFault where
  | unexpectedCharacter (c : Char)
  | singleQuote
  | digitAfterZero (c : Char)
  | expectedDigit (found : Option Char)
  | unterminatedText
  | badEscape (written : String)
  | badUnicodeEscape (written : String)
  deriving DecidableEq, Repr

/-- Upper-case hexadecimal digits of a number, at least four of them. -/
def paddedHex (n : Nat) : String :=
  let digits := (Nat.toDigits 16 n).map Char.toUpper
  String.ofList (List.replicate (4 - digits.length) '0' ++ digits)

/-- How a message shows one character: quoted if it is printable ASCII, else by number. -/
def showChar (c : Char) : String :=
  if ' ' ≤ c && c ≤ '~' then String.ofList ['\'', c, '\''] else "U+" ++ paddedHex c.toNat

/-- How a message shows the character at a place, or the end of the text. -/
def showPlace : Option Char → String
  | some c => showChar c
  | none => "<EOF>"

def LexicalFault.message : LexicalFault → String
  | .unexpectedCharacter c => s!"Unexpected character: {showChar c}."
  | .singleQuote =>
      "Unexpected single quote character ('), did you mean to use a double quote (\")?"
  | .digitAfterZero c => s!"Invalid number, unexpected digit after 0: {showChar c}."
  | .expectedDigit found => s!"Invalid number, expected digit but got: {showPlace found}."
  | .unterminatedText => "Unterminated string."
  | .badEscape written => s!"Invalid character escape sequence: '{written}'."
  | .badUnicodeEscape written => s!"Invalid Unicode escape sequence: '{written}'."

inductive Lexeme where
  | mark (mark : Punctuator)
  | name (value : String)
  | int (numeral : String)
  | float (numeral : String)
  | text (value : String) (block : Bool)
  | invalid (fault : LexicalFault)
  deriving DecidableEq, Repr

/-- The characters that a lexeme stands for, where it is not a mark. -/
def Lexeme.value? : Lexeme → Option String
  | .name value => some value
  | .int numeral => some numeral
  | .float numeral => some numeral
  | .text value _ => some value
  | .mark _ | .invalid _ => none

def Lexeme.describe : Lexeme → String
  | .mark m => s!"'{m.text}'"
  | .name value => s!"Name '{value}'"
  | .int numeral => s!"Int '{numeral}'"
  | .float numeral => s!"Float '{numeral}'"
  | .text value false => s!"String '{value}'"
  | .text value true => s!"BlockString '{value}'"
  | .invalid fault => fault.message

/-- How a message shows the next lexeme, or the end of the text. -/
def describeNext : Option Lexeme → String
  | some lexeme => lexeme.describe
  | none => "<EOF>"

end QueryProjection
