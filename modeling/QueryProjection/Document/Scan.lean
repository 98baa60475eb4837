import QueryProjection.Document.Lexeme
import QueryProjection.Text.Hex
import QueryProjection.Text.Position

/-!
# From characters to lexemes

`tokens` cuts a text into lexemes and remembers for each how many characters remain from
its first one on.  Blanks, commas, line breaks, byte order marks and comments separate
lexemes and are dropped.  The functions for single lexemes recurse on the text itself;
where an escape stands for several characters, a counter of characters still to be passed
keeps the recursion on the tail.
-/

namespace QueryProjection.Scan

/-- A fault with the number of characters that remain from its place on. -/
abbrev Located := LexicalFault × Nat

def isIgnored (c : Char) : Bool :=
  c = ' ' || c = '\t' || c = ',' || c = '\n' || c = '\r' || c = '\uFEFF'

def isLineEnd (c : Char) : Bool := c = '\n' || c = '\r'

def isNameStart (c : Char) : Bool := c.isAlpha || c = '_'

def isNamePart (c : Char) : Bool := c.isAlphanum || c = '_'

/-! ### Numerals -/

def digits (cs : List Char) : Except Located (List Char × List Char) :=
  match cs.takeWhile Char.isDigit with
  | [] => .error (.expectedDigit cs.head?, cs.length)
  | run => .ok (run, cs.dropWhile Char.isDigit)

/-- The digits before the point: a zero stands alone. -/
def wholePart (cs : List Char) : Except Located (List Char × List Char) :=
  match cs with
  | '0' :: rest =>
      match rest with
      | d :: _ => if d.isDigit then .error (.digitAfterZero d, rest.length) else .ok (['0'], rest)
      | [] => .ok (['0'], [])
  | _ => digits cs

def fraction (cs : List Char) : Except Located (List Char × List Char) :=
  match cs with
  | '.' :: rest => do
      let (run, last) ← digits rest
      return ('.' :: run, last)
  | _ => .ok ([], cs)

def sign : List Char → List Char × List Char
  | '+' :: rest => (['+'], rest)
  | '-' :: rest => (['-'], rest)
  | rest => ([], rest)

def exponent (cs : List Char) : Except Located (List Char × List Char) :=
  match cs with
  | e :: rest =>
      if e = 'e' || e = 'E' then do
        let (signPart, unsigned) := sign rest
        let (run, last) ← digits unsigned
        return (e :: signPart ++ run, last)
      else .ok ([], cs)
  | [] => .ok ([], [])

def minus : List Char → List Char × List Char
  | '-' :: rest => (['-'], rest)
  | cs => ([], cs)

/-- A whole or fractional numeral.  Nothing that could continue it may follow at once. -/
def numeral (cs : List Char) : Except Located (Lexeme × List Char) := do
  let (minusPart, unsigned) := minus cs
  let (whole, afterWhole) ← wholePart unsigned
  let (fractionPart, afterFraction) ← fraction afterWhole
  let (exponentPart, rest) ← exponent afterFraction
  match rest with
  | c :: _ =>
      if c = '.' || isNameStart c then throw (.expectedDigit (some c), rest.length)
  | [] => pure ()
  let written := String.ofList (minusPart ++ whole ++ fractionPart ++ exponentPart)
  if fractionPart.isEmpty && exponentPart.isEmpty then return (.int written, rest)
  else return (.float written, rest)

/-! ### Quoted texts -/

def shortEscape? : Char → Option Char
  | '"' => some '"'
  | '\\' => some '\\'
  | '/' => some '/'
  | 'b' => some '\x08'
  | 'f' => some '\x0c'
  | 'n' => some '\n'
  | 'r' => some '\r'
  | 't' => some '\t'
  | _ => none

/-- The digits of an escape in braces and its closing brace.  `size` counts the characters
of the escape so far, its backslash included; either way the count at the end is returned. -/
def bracedEscape (size point : Nat) : List Char → Except Nat (Char × Nat)
  | [] => .error size
  | c :: rest =>
      if c = '\x7d' then
        if 5 ≤ size + 1 && point.isValidChar then .ok (Char.ofNat point, size + 1)
        else .error (size + 1)
      else match Text.hexValue? c with
        | none => .error (size + 1)
        | some digit => bracedEscape (size + 1) (16 * point + digit) rest

/-- The most characters that an escape in braces has after its opening brace. -/
def bracedLimit : Nat := 9

/-- The low surrogate escaped next, if there is one. -/
def lowEscape? : List Char → Option Nat
  | '\\' :: 'u' :: a :: b :: c :: d :: _ =>
      (Text.hexUnit? a b c d).filter Text.isLowSurrogate
  | _ => none

/-- An escape by four digits, or by two times four for a surrogate pair. -/
def unitEscape? : List Char → Option (Char × Nat)
  | a :: b :: c :: d :: after => do
      let unit ← Text.hexUnit? a b c d
      if Text.isHighSurrogate unit then
        let low ← lowEscape? after
        return (Char.ofNat (Text.joinSurrogates unit low), 11)
      else if Text.isLowSurrogate unit then none
      else return (Char.ofNat unit, 5)
  | _ => none

/-- The escape behind a backslash: its character, and how many characters it takes. -/
def escape (cs : List Char) : Except LexicalFault (Char × Nat) :=
  match cs with
  | 'u' :: '\x7b' :: inner =>
      match bracedEscape 3 0 (inner.take bracedLimit) with
      | .ok (c, size) => .ok (c, size - 1)
      | .error size => .error (.badUnicodeEscape (String.ofList (('\\' :: cs).take size)))
  | 'u' :: inner =>
      match unitEscape? inner with
      | some found => .ok found
      | none => .error (.badUnicodeEscape (String.ofList (('\\' :: cs).take 6)))
  | c :: _ =>
      match shortEscape? c with
      | some x => .ok (x, 1)
      | none => .error (.badEscape (String.ofList ['\\', c]))
  | [] => .error (.badEscape "\\")

/-- The characters of a quoted text up to its closing quote, which stands on the same line.
The first argument counts the characters that belong to an escape already read. -/
def quoted : Nat → List Char → Except Located (List Char × List Char)
  | _, [] => .error (.unterminatedText, 0)
  | skip + 1, _ :: rest => quoted skip rest
  | 0, c :: rest =>
      if c = '"' then .ok ([], rest)
      else if c = '\\' then
        match escape rest with
        | .error fault => .error (fault, rest.length + 1)
        | .ok (x, size) => (quoted size rest).map fun read => (x :: read.1, read.2)
      else if isLineEnd c then .error (.unterminatedText, rest.length + 1)
      else (quoted 0 rest).map fun read => (c :: read.1, read.2)

/-! ### Block texts -/

/-- The characters of a block text up to its three closing quotes; behind a backslash three
quotes stand for themselves. -/
def block? : List Char → Option (List Char × List Char)
  | [] => none
  | '"' :: '"' :: '"' :: rest => some ([], rest)
  | '\\' :: '"' :: '"' :: '"' :: rest =>
      (block? rest).map fun read => ('"' :: '"' :: '"' :: read.1, read.2)
  | c :: rest => (block? rest).map fun read => (c :: read.1, read.2)

def isIndent (c : Char) : Bool := c = ' ' || c = '\t'

def isBlankLine (line : List Char) : Bool := line.all isIndent

def commonIndent (lines : List (List Char)) : Nat :=
  ((lines.filter fun line => !isBlankLine line).map
    fun line => (line.takeWhile isIndent).length).min?.getD 0

def trimBlankLines (lines : List (List Char)) : List (List Char) :=
  ((lines.dropWhile isBlankLine).reverse.dropWhile isBlankLine).reverse

/-- Removes the indentation common to all lines but the first, then the blank lines at both
ends. -/
def dedent : List (List Char) → List (List Char)
  | [] => []
  | first :: rest => trimBlankLines (first :: rest.map (List.drop (commonIndent rest)))

/-- The text that the raw characters of a block stand for. -/
def blockValue (raw : List Char) : List Char :=
  ['\n'].intercalate (dedent (Text.splitLines (Text.unifyBreaks raw)))

/-! ### Lexemes -/

def lexeme (c : Char) (rest : List Char) : Except Located (Lexeme × List Char) :=
  match Punctuator.ofChar? c with
  | some mark => .ok (.mark mark, rest)
  | none =>
    if c = '.' then
      match rest with
      | '.' :: '.' :: last => .ok (.mark .spread, last)
      | _ => .error (.unexpectedCharacter '.', rest.length + 1)
    else if c = '"' then
      match rest with
      | '"' :: '"' :: inner =>
          match block? inner with
          | some (raw, last) => .ok (.text (String.ofList (blockValue raw)) true, last)
          | none => .error (.unterminatedText, 0)
      | _ => (quoted 0 rest).map fun read => (.text (String.ofList read.1) false, read.2)
    else if c.isDigit || c = '-' then numeral (c :: rest)
    else if isNameStart c then
      .ok (.name (String.ofList (c :: rest.takeWhile isNamePart)), rest.dropWhile isNamePart)
    else if c = '\'' then .error (.singleQuote, rest.length + 1)
    else .error (.unexpectedCharacter c, rest.length + 1)

/-- A lexeme and the number of characters that remain from its place on.  The place of an
invalid word is where the fault lies. -/
structure Token where
  lexeme : Lexeme
  remaining : Nat
  deriving DecidableEq, Repr

/-- The tokens of a text; each step drops at least one character. -/
def tokensWithin : Nat → List Char → List Token
  | 0, _ => []
  | _ + 1, [] => []
  | fuel + 1, c :: rest =>
      if isIgnored c then tokensWithin fuel rest
      else if c = '#' then tokensWithin fuel (rest.dropWhile fun x => !isLineEnd x)
      else match lexeme c rest with
        | .ok (found, last) =>
            { lexeme := found, remaining := rest.length + 1 } :: tokensWithin fuel last
        | .error (fault, remaining) => [{ lexeme := .invalid fault, remaining }]

/-- The tokens of a text, up to its end or to the first word that is none. -/
def tokens (cs : List Char) : List Token := tokensWithin cs.length cs

def lexemes (cs : List Char) : List Lexeme := (tokens cs).map Token.lexeme

end QueryProjection.Scan
