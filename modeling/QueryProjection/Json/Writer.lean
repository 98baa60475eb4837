import QueryProjection.Datum
import QueryProjection.Decimal.Layout
import QueryProjection.Text.Hex

/-!
# Writing JSON

Values are written in ASCII, with four blanks of indentation for each level, every item
of a list and every field of an object on a line of its own.  Characters outside printable
ASCII, the quote and the backslash are escaped; characters beyond the basic plane become
two escapes, one for each of their sixteen-bit units.
-/

namespace QueryProjection.Json

/-- JSON numbers are positional from `10 ^ -4` up to, and without, `10 ^ 16`; the values
that JSON proper lacks are written as words. -/
def numberStyle : Decimal.NumberStyle :=
  { positionalFrom := -4, positionalBelow := 16, infinity := "Infinity", notANumber := "NaN" }

def unicodeEscape (unit : Nat) : List Char := '\\' :: 'u' :: Text.hexUnit unit

def escapeChar (c : Char) : List Char :=
  if c = '"' then ['\\', '"']
  else if c = '\\' then ['\\', '\\']
  else if c = '\n' then ['\\', 'n']
  else if c = '\r' then ['\\', 'r']
  else if c = '\t' then ['\\', 't']
  else if c = '\x08' then ['\\', 'b']
  else if c = '\x0c' then ['\\', 'f']
  else if ' ' ≤ c && c ≤ '~' then [c]
  else (Text.unitsOf c).flatMap unicodeEscape

def quote (s : String) : List Char := '"' :: s.toList.flatMap escapeChar ++ ['"']

/-- A line break followed by the indentation of a level. -/
def newline (level : Nat) : List Char := '\n' :: List.replicate (4 * level) ' '

mutual

/-- A value that stands on a line of the given level. -/
def writeValue (level : Nat) : Datum → List Char
  | .null => "null".toList
  | .bool true => "true".toList
  | .bool false => "false".toList
  | .int value => (toString value).toList
  | .float value => (Decimal.floatText numberStyle value).toList
  | .text value => quote value
  | .list [] => "[]".toList
  | .list (item :: items) =>
      '[' :: newline (level + 1) ++ writeValue (level + 1) item
        ++ writeItems (level + 1) items ++ newline level ++ [']']
  | .object [] => ['{', '}']
  | .object ((name, value) :: fields) =>
      '{' :: newline (level + 1) ++ quote name ++ [':', ' '] ++ writeValue (level + 1) value
        ++ writeFields (level + 1) fields ++ newline level ++ ['}']

def writeItems (level : Nat) : List Datum → List Char
  | [] => []
  | item :: items =>
      ',' :: newline level ++ writeValue level item ++ writeItems level items

def writeFields (level : Nat) : List (String × Datum) → List Char
  | [] => []
  | (name, value) :: fields =>
      ',' :: newline level ++ quote name ++ [':', ' '] ++ writeValue level value
        ++ writeFields level fields

end

/-- A value as a text of its own, with a line break at the end. -/
def write (d : Datum) : List Char := writeValue 0 d ++ ['\n']

end QueryProjection.Json
