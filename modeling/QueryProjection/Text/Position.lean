/-!
# Lines and columns

A place in a text is an offset, counted in characters.  People are told a line and a
column, both counted from one.  What ends a line is a matter of the format: in some
texts the line feed alone, in query documents also a carriage return and the pair of
both.  `unifyBreaks` reduces the second case to the first.
-/

namespace QueryProjection.Text

/-- A line and a column, both counted from one. -/
structure Position where
  line : Nat
  column : Nat
  deriving DecidableEq, Repr, Inhabited

namespace Position

def start : Position := { line := 1, column := 1 }

/-- The place after one more character, where only a line feed ends a line. -/
def advance (p : Position) (c : Char) : Position :=
  if c = '\n' then { line := p.line + 1, column := 1 }
  else { p with column := p.column + 1 }

def after (passed : List Char) : Position := passed.foldl advance start

end Position

/-- Writes every line break, be it a carriage return, a line feed or the pair of both, as
one line feed. -/
def unifyBreaks : List Char → List Char
  | [] => []
  | '\r' :: '\n' :: rest => '\n' :: unifyBreaks rest
  | '\r' :: rest => '\n' :: unifyBreaks rest
  | c :: rest => c :: unifyBreaks rest

/-- The lines of a text whose breaks are line feeds; a break at the end is followed by one
more, empty line. -/
def splitLines : List Char → List (List Char)
  | [] => [[]]
  | c :: rest =>
      if c = '\n' then [] :: splitLines rest
      else match splitLines rest with
        | [] => [[c]]
        | line :: lines => (c :: line) :: lines

end QueryProjection.Text
