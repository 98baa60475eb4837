import QueryProjection.Command.Run

/-!
# The help of the command

What the command tells of itself: how its options are written, what it is for, and what each option
does.  Lines are filled up to the width of eighty columns, of which the last two stay free.  What an
option does starts in one column, on a line of its own if the option reaches too far.
-/

namespace QueryProjection.Command

namespace Switch

/-- What stands for the value of an option that takes one. -/
def placeholder? : Switch → Option String
  | .bindings => some "VARIABLES"
  | .operationName => some "OPERATION_NAME"
  | .exclude => some "EXCLUDE"
  | .help | .aggregate | .strict => none

def withPlaceholder (switch : Switch) (name : String) : String :=
  match switch.placeholder? with
  | some placeholder => name ++ " " ++ placeholder
  | none => name

/-- How an option may be written, where all that can be written is listed. -/
def optionalForm (switch : Switch) : String :=
  let name := match switch with
    | .help => "-h"
    | switch => switch.longName
  "[" ++ switch.withPlaceholder name ++ "]"

/-- How an option is written, where it is told what it does. -/
def form (switch : Switch) : String :=
  let name := match switch with
    | .help => "-h, --help"
    | switch => switch.longName
  switch.withPlaceholder name

def purpose : Switch → String
  | .help => "show this help message and exit"
  | .aggregate => "treat root fields as aggregate or groupBy fields"
  | .bindings => "JSON object of variable values used by the query"
  | .operationName => "operation to compile"
  | .exclude => "name of a field to leave out of projections; may be repeated"
  | .strict => "fail on undefined fragments, unbound variables and unsupported values"

end Switch

/-! ### Lines -/

def joinWords (words : List String) : String := " ".intercalate words

def columns (words : List String) : Nat := (joinWords words).length

/-- Lines of words, of which the first has some already.  A line ends before the first word that
would make it wider than it may be. -/
def fillFrom (width : Nat) : List String → List String → List (List String)
  | line, [] => [line]
  | line, word :: rest =>
      if columns (line ++ [word]) ≤ width then fillFrom width (line ++ [word]) rest
      else line :: fillFrom width [word] rest

def fill (width : Nat) : List String → List (List String)
  | [] => []
  | word :: rest => fillFrom width [word] rest

theorem flatten_fillFrom (width : Nat) (line words : List String) :
    (fillFrom width line words).flatten = line ++ words := by
  induction words generalizing line with
  | nil => simp [fillFrom]
  | cons word rest ih =>
      rw [fillFrom]
      split
      · rw [ih, List.append_assoc, List.singleton_append]
      · rw [List.flatten_cons, ih, List.singleton_append]

theorem flatten_fill (width : Nat) (words : List String) : (fill width words).flatten = words := by
  cases words with
  | nil => rfl
  | cons word rest => exact flatten_fillFrom width [word] rest

/-- A line is no wider than it may be, unless it is a single word. -/
theorem fits_of_mem_fillFrom {width : Nat} {line words : List String}
    (hline : columns line ≤ width ∨ line.length = 1) :
    ∀ found ∈ fillFrom width line words, columns found ≤ width ∨ found.length = 1 := by
  induction words generalizing line with
  | nil =>
      intro found hfound
      rw [fillFrom, List.mem_singleton] at hfound
      exact hfound ▸ hline
  | cons word rest ih =>
      rw [fillFrom]
      split
      · rename_i hfits
        exact ih (Or.inl hfits)
      · intro found hfound
        rcases List.mem_cons.mp hfound with rfl | hlater
        · exact hline
        · exact ih (Or.inr rfl) found hlater

theorem fits_of_mem_fill {width : Nat} {words : List String} :
    ∀ found ∈ fill width words, columns found ≤ width ∨ found.length = 1 := by
  cases words with
  | nil => exact fun found hfound => nomatch hfound
  | cons word rest => exact fits_of_mem_fillFrom (Or.inr rfl)

example : fill 10 ["one", "two", "three", "four", "seventeen", "five"] =
    [["one", "two"], ["three", "four"], ["seventeen"], ["five"]] := by cbv

/-! ### The text -/

def indent (columns : Nat) (text : String) : String :=
  String.ofList (List.replicate columns ' ') ++ text

/-- A heading with the lines that belong to it, these in one column.  The first stands beside the
heading if that leaves two columns free. -/
def besides (column : Nat) (heading : String) (lines : List (List String)) : List String :=
  let shown := lines.map joinWords
  match shown with
  | first :: rest =>
      if heading.length + 2 ≤ column then
        (heading ++ indent (column - heading.length) first) :: rest.map (indent column)
      else heading :: shown.map (indent column)
  | [] => [heading]

def textWidth : Nat := 78

/-- The column that tells what an option does. -/
def purposeColumn : Nat := 24

def usageLines : List String :=
  let opening := "usage: " ++ programName ++ " "
  match fill (textWidth - opening.length) (Switch.all.map Switch.optionalForm) with
  | first :: rest =>
      (opening ++ joinWords first) :: rest.map fun line => indent opening.length (joinWords line)
  | [] => [opening]

def Switch.helpLines (switch : Switch) : List String :=
  besides purposeColumn (indent 2 switch.form)
    (fill (textWidth - purposeColumn) (switch.purpose.splitOn " "))

def helpLines : List String :=
  usageLines ++
    ["", "Print the projection of each root field of a GraphQL query read from stdin.", "",
      "options:"] ++ Switch.all.flatMap Switch.helpLines

def help : String := String.join (helpLines.map fun line => line ++ "\n")

end QueryProjection.Command
