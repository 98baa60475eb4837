import QueryProjection.Datum
import QueryProjection.Decimal.Basic
import QueryProjection.Text.Hex
import QueryProjection.Text.Position

/-!
# Reading JSON

Variable bindings arrive as JSON text.  The reader accepts the usual grammar and, beside
it, the words for the infinities and for the number that is none.  Whole numbers keep
every digit, up to a limit on their length; numbers with a fraction or an exponent become
doubles.  A repeated field keeps its first place and its last value.

A fault names what was expected and where.  The place is kept as the number of characters
that remain, since that is what a function on the remaining text knows; `Fault.offset`
turns it into an offset.
-/

namespace QueryProjection.Json

inductive Complaint where
  | expectingValue
  | expectingName
  | expectingColon
  | expectingComma
  | extraData
  | unterminatedText
  | controlCharacter
  | badEscape
  | badUnicodeEscape
  | byteOrderMark
  deriving DecidableEq, Repr

inductive Fault where
  | malformed (complaint : Complaint) (remaining : Nat)
  | numeralTooLong
  deriving DecidableEq, Repr

def Complaint.message : Complaint → String
  | .expectingValue => "Expecting value"
  | .expectingName => "Expecting property name enclosed in double quotes"
  | .expectingColon => "Expecting ':' delimiter"
  | .expectingComma => "Expecting ',' delimiter"
  | .extraData => "Extra data"
  | .unterminatedText => "Unterminated string starting at"
  | .controlCharacter => "Invalid control character at"
  | .badEscape => "Invalid \\escape"
  | .badUnicodeEscape => "Invalid \\uXXXX escape"
  | .byteOrderMark => "Unexpected UTF-8 BOM (decode using utf-8-sig)"

/-- A complaint with its place in the text: line, column and offset. -/
def Complaint.report (complaint : Complaint) (text : List Char) (remaining : Nat) : String :=
  let offset := text.length - remaining
  let place := Text.Position.after (text.take offset)
  s!"{complaint.message}: line {place.line} column {place.column} (char {offset})"

/-- What reading gives: a value, usually with the text that remains, or a fault. -/
abbrev Reading := Except Fault

def fail {α : Type} (complaint : Complaint) (rest : List Char) : Reading α :=
  .error (.malformed complaint rest.length)

def isBlank (c : Char) : Bool := c = ' ' || c = '\t' || c = '\n' || c = '\r'

def skipBlank (cs : List Char) : List Char := cs.dropWhile isBlank

/-! ### Texts -/

def shortEscape? : Char → Option Char
  | '"' => some '"'
  | '\\' => some '\\'
  | '/' => some '/'
  | 'b' => some '\x08'
  | 'f' => some '\x0c'
  | 'n' => some '\n'
  | 'r' => some '\r'
  | 't' => some '\t'
  | _ => none

/-- The character of a unit; a surrogate that stands alone is no character and becomes the
replacement character. -/
def unitChar (unit : Nat) : Char :=
  if Text.isHighSurrogate unit || Text.isLowSurrogate unit then '\uFFFD'
  else Char.ofNat unit

def push (c : Char) (tail : Reading (List Char × List Char)) : Reading (List Char × List Char) :=
  tail.map fun read => (c :: read.1, read.2)

/-- The low surrogate that completes a high one, if the text goes on with its escape and
does not end there. -/
def lowAfter? (unit : Nat) : List Char → Reading (Option Nat)
  | '\\' :: 'u' :: a :: b :: c :: d :: beyond =>
      if Text.isHighSurrogate unit && !beyond.isEmpty then
        match Text.hexUnit? a b c d with
        | none => fail .badUnicodeEscape ('u' :: a :: b :: c :: d :: beyond)
        | some low => .ok (if Text.isLowSurrogate low then some low else none)
      else .ok none
  | _ => .ok none

/-- The text up to its closing quote.  `opening` is the number of characters that remain
from the opening quote on, where an unterminated text is reported. -/
def readText (opening : Nat) : List Char → Reading (List Char × List Char)
  | [] => .error (.malformed .unterminatedText opening)
  | c :: rest =>
    if c = '"' then .ok ([], rest)
    else if c = '\\' then
      match rest with
      | [] => .error (.malformed .unterminatedText opening)
      | e :: tail =>
        if e = 'u' then
          match tail with
          | a :: b :: c :: d :: after =>
            if after.isEmpty then fail .badUnicodeEscape rest
            else match Text.hexUnit? a b c d with
              | none => fail .badUnicodeEscape rest
              | some unit =>
                match lowAfter? unit after with
                | .error fault => .error fault
                | .ok none => push (unitChar unit) (readText opening after)
                | .ok (some low) =>
                  match after with
                  | _ :: _ :: _ :: _ :: _ :: _ :: beyond =>
                    push (Char.ofNat (Text.joinSurrogates unit low)) (readText opening beyond)
                  | _ => .error (.malformed .unterminatedText opening)
          | _ => fail .badUnicodeEscape rest
        else match shortEscape? e with
          | none => fail .badEscape (c :: rest)
          | some x => push x (readText opening tail)
    else if c.toNat < 0x20 then fail .controlCharacter (c :: rest)
    else push c (readText opening rest)

/-! ### Numbers -/

/-- The most digits a whole number may have, its sign not counted. -/
def digitLimit : Nat := 4300

/-- The digits of a fraction, if a point and a digit follow. -/
def fraction (cs : List Char) : List Char × List Char :=
  match cs with
  | '.' :: d :: rest =>
      if d.isDigit then ('.' :: (d :: rest).takeWhile Char.isDigit, (d :: rest).dropWhile Char.isDigit)
      else ([], cs)
  | _ => ([], cs)

def exponentSign : List Char → List Char × List Char
  | '+' :: rest => (['+'], rest)
  | '-' :: rest => (['-'], rest)
  | rest => ([], rest)

def exponent (cs : List Char) : List Char × List Char :=
  match cs with
  | e :: rest =>
      if e = 'e' || e = 'E' then
        let (sign, tail) := exponentSign rest
        let digits := tail.takeWhile Char.isDigit
        if digits.isEmpty then ([], cs) else (e :: sign ++ digits, tail.dropWhile Char.isDigit)
      else ([], cs)
  | [] => ([], [])

/-- The digits before the point: a zero alone, or a run that starts with another digit. -/
def wholePart : List Char → List Char × List Char
  | '0' :: rest => (['0'], rest)
  | cs => (cs.takeWhile Char.isDigit, cs.dropWhile Char.isDigit)

/-- A number.  As many characters are taken as form a number, so what follows a number that
breaks off is left for the caller. -/
def readNumber (cs : List Char) : Reading (Datum × List Char) :=
  let (sign, unsigned) := match cs with
    | '-' :: rest => (['-'], rest)
    | _ => ([], cs)
  let (whole, afterWhole) := wholePart unsigned
  if whole.isEmpty then fail .expectingValue cs
  else
    let (fractionPart, afterFraction) := fraction afterWhole
    let (exponentPart, rest) := exponent afterFraction
    if fractionPart.isEmpty && exponentPart.isEmpty then
      if whole.length > digitLimit then .error .numeralTooLong
      else .ok (.int (Decimal.intOfDigits (sign ++ whole)), rest)
    else
      .ok (.float (Decimal.floatOfNumeral (sign ++ whole ++ fractionPart ++ exponentPart)), rest)

/-! ### Values -/

def words : List (List Char × Datum) :=
  [ ("null".toList, .null), ("true".toList, .bool true), ("false".toList, .bool false),
    ("NaN".toList, .float Decimal.notANumber), ("Infinity".toList, .float Decimal.infinity),
    ("-Infinity".toList, .float (-Decimal.infinity)) ]

def afterWord? : List Char → List Char → Option (List Char)
  | [], rest => some rest
  | _ :: _, [] => none
  | w :: word, c :: rest => if w = c then afterWord? word rest else none

def readAtom (cs : List Char) : Reading (Datum × List Char) :=
  match words.findSome? fun entry => (afterWord? entry.1 cs).map fun rest => (entry.2, rest) with
  | some found => .ok found
  | none => readNumber cs

mutual

/-- A value.  Every step of the recursion, here and in the two functions for containers,
spends one unit of fuel; twice the length of the text is enough. -/
def readValue : Nat → List Char → Reading (Datum × List Char)
  | 0, cs => fail .expectingValue cs
  | fuel + 1, cs =>
    match cs with
    | [] => fail .expectingValue []
    | c :: rest =>
      if c = '"' then do
        let (text, last) ← readText cs.length rest
        return (.text (String.ofList text), last)
      else if c = '{' then
        match skipBlank rest with
        | '}' :: last => .ok (.object [], last)
        | inner => do
          let (fields, last) ← readFields fuel [] inner
          return (.object fields, last)
      else if c = '[' then
        match skipBlank rest with
        | ']' :: last => .ok (.list [], last)
        | inner => do
          let (items, last) ← readItems fuel inner
          return (.list items, last)
      else readAtom cs

def readItems : Nat → List Char → Reading (List Datum × List Char)
  | 0, cs => fail .expectingValue cs
  | fuel + 1, cs => do
    let (item, afterItem) ← readValue fuel cs
    match skipBlank afterItem with
    | ']' :: last => return ([item], last)
    | ',' :: more => do
      let (items, last) ← readItems fuel (skipBlank more)
      return (item :: items, last)
    | other => fail .expectingComma other

/-- The fields of an object, at least one, up to the closing brace, written over the fields
read so far. -/
def readFields :
    Nat → OrderedMap String Datum → List Char → Reading (OrderedMap String Datum × List Char)
  | 0, _, cs => fail .expectingName cs
  | fuel + 1, before, cs =>
    match cs with
    | '"' :: rest => do
      let (name, afterName) ← readText cs.length rest
      match skipBlank afterName with
      | ':' :: afterColon => do
        let (value, afterValue) ← readValue fuel (skipBlank afterColon)
        let fields := OrderedMap.insert before (String.ofList name) value
        match skipBlank afterValue with
        | '}' :: last => return (fields, last)
        | ',' :: more => readFields fuel fields (skipBlank more)
        | other => fail .expectingComma other
      | other => fail .expectingColon other
    | other => fail .expectingName other

end

/-- Reads a text that is one JSON value with blanks around it. -/
def read (text : List Char) : Except Fault Datum :=
  match text with
  | '\uFEFF' :: _ => fail .byteOrderMark text
  | _ => do
    let (value, rest) ← readValue (2 * text.length + 2) (skipBlank text)
    match skipBlank rest with
    | [] => return value
    | extra => fail .extraData extra

end QueryProjection.Json
