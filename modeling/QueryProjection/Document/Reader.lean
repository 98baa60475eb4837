import QueryProjection.Document.Lexeme
import QueryProjection.Document.SyntaxError

/-!
# Reading lexemes

A reader takes the lexemes that remain and gives a value with the lexemes after it, or a
fault.  Lexemes carry no places, so what is read depends on the words alone; a fault is
located by the number of lexemes that remain at its place.

The text is cut into lexemes one step ahead of the reader: moving past a lexeme looks at
the next one, and if that is invalid its fault comes before anything the grammar might
say.  `advance` keeps to this, so no other reader ever meets an invalid lexeme as the next
one.

Repetition is bounded by the number of lexemes that remain, since every round takes at
least one.
-/

namespace QueryProjection.Grammar

/-- A fault, and how many lexemes remain from its place on. -/
structure Fault where
  fault : SyntaxFault
  remaining : Nat
  deriving DecidableEq, Repr

abbrev Reader := StateT (List Lexeme) (Except Fault)

/-- Stops at a place, given by the lexemes that remain there. -/
def failAt {α : Type} (fault : SyntaxFault) (lexemes : List Lexeme) : Reader α :=
  throw { fault, remaining := lexemes.length }

def next : Reader (Option Lexeme) := return (← get).head?

/-- Reports the next lexeme as one that cannot stand here. -/
def unexpected {α : Type} : Reader α := do
  let lexemes ← get
  failAt (.unexpected lexemes.head?) lexemes

/-- Checks that the text does not go on with an invalid lexeme. -/
def checkNext (lexemes : List Lexeme) : Except Fault (List Lexeme) :=
  match lexemes with
  | .invalid fault :: _ => .error { fault := .lexical fault, remaining := lexemes.length }
  | _ => .ok lexemes

def advance : Reader Unit := fun lexemes => do
  let rest ← checkNext lexemes.tail
  return ((), rest)

def lookAhead : Reader (List Lexeme) := do
  let lexemes ← get
  checkNext lexemes.tail

def nextIs (m : Punctuator) : Reader Bool := return (← next) == some (.mark m)

/-- Moves past the mark if it comes next, and tells whether it did. -/
def accept (m : Punctuator) : Reader Bool := do
  if ← nextIs m then
    advance
    return true
  else return false

def require (m : Punctuator) : Reader Unit := do
  if ← accept m then return ()
  else
    let lexemes ← get
    failAt (.expected (.mark m) lexemes.head?) lexemes

def acceptWord (word : String) : Reader Bool := do
  if (← next) == some (.name word) then
    advance
    return true
  else return false

def requireWord (word : String) : Reader Unit := do
  if ← acceptWord word then return ()
  else
    let lexemes ← get
    failAt (.expected (.keyword word) lexemes.head?) lexemes

def name : Reader String := do
  let lexemes ← get
  match lexemes.head? with
  | some (.name value) =>
      advance
      return value
  | found => failAt (.expected .name found) lexemes

def endOfText : Reader Unit := do
  let lexemes ← get
  match lexemes with
  | [] => return ()
  | found :: _ => failAt (.expected .endOfText (some found)) lexemes

/-! ### Repetition -/

/-- Items up to a closing mark, in at most so many rounds. -/
def itemsWithin {α : Type} (close : Punctuator) (item : Reader α) : Nat → Reader (List α)
  | 0 => unexpected
  | rounds + 1 => do
    if ← accept close then return []
    else
      let first ← item
      let others ← itemsWithin close item rounds
      return first :: others

def itemsUntil {α : Type} (close : Punctuator) (item : Reader α) : Reader (List α) := do
  itemsWithin close item ((← get).length + 1)

def anyBetween {α : Type} (opening : Punctuator) (item : Reader α) (close : Punctuator) :
    Reader (List α) := do
  require opening
  itemsUntil close item

def someBetween {α : Type} (opening : Punctuator) (item : Reader α) (close : Punctuator) :
    Reader (List α) := do
  require opening
  let first ← item
  let others ← itemsUntil close item
  return first :: others

/-- Items between two marks, at least one, or nothing at all. -/
def optionalBetween {α : Type} (opening : Punctuator) (item : Reader α) (close : Punctuator) :
    Reader (List α) := do
  if ← nextIs opening then someBetween opening item close else return []

def separatedWithin {α : Type} (separator : Punctuator) (item : Reader α) : Nat → Reader (List α)
  | 0 => unexpected
  | rounds + 1 => do
    let first ← item
    if ← accept separator then
      let others ← separatedWithin separator item rounds
      return first :: others
    else return [first]

/-- Items separated by a mark, which may also stand before the first. -/
def separated {α : Type} (separator : Punctuator) (item : Reader α) : Reader (List α) := do
  let _ ← accept separator
  separatedWithin separator item ((← get).length + 1)

def startingWithin {α : Type} (start : Punctuator) (item : Reader α) : Nat → Reader (List α)
  | 0 => return []
  | rounds + 1 => do
    if ← nextIs start then
      let first ← item
      let others ← startingWithin start item rounds
      return first :: others
    else return []

def startingWith {α : Type} (start : Punctuator) (item : Reader α) : Reader (List α) := do
  startingWithin start item ((← get).length + 1)

end QueryProjection.Grammar
