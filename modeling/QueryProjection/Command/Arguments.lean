import QueryProjection.Text.Digit
import QueryProjection.Text.Literal

/-!
# The arguments of the command line

Options start with two dashes and may be shortened as long as they stay unambiguous.  Some
take a value, in the next argument or after an equals sign.  All arguments are sorted into
options and values first; only then are they gone through in order.  What is neither an
option nor the value of one is collected and refused at the end.  Where help is asked for they
are gone through no further, and nothing behind it is refused any more.

Two dashes alone end the options.  They are never a value: an option that has them after its
equals sign is left with an empty list in the place of a text.

These are the rules of argparse before its releases 3.11.8 and 3.12.2.  From then on two dashes
behind an equals sign are a text like any other, help is given for `-h` whatever is run together
with it, and `-h=h` is refused.
-/

namespace QueryProjection.Command

inductive Switch where
  | help
  | aggregate
  | bindings
  | operationName
  | exclude
  | strict
  deriving DecidableEq, Repr

namespace Switch

/-- All options, in the order in which they are declared. -/
def all : List Switch := [.help, .aggregate, .bindings, .operationName, .exclude, .strict]

def longName : Switch → String
  | .help => "--help"
  | .aggregate => "--aggregate"
  | .bindings => "--variables"
  | .operationName => "--operation-name"
  | .exclude => "--exclude"
  | .strict => "--strict"

def title : Switch → String
  | .help => "-h/--help"
  | switch => switch.longName

def takesValue : Switch → Bool
  | .bindings | .operationName | .exclude => true
  | .help | .aggregate | .strict => false

def ofLongName? (written : String) : Option Switch :=
  all.find? fun switch => switch.longName == written

def ofName? (written : String) : Option Switch :=
  if written = "-h" then some .help else ofLongName? written

end Switch

inductive UsageError where
  | ambiguous (written : String) (candidates : List Switch)
  | expectedValue (switch : Switch)
  | ignoredValue (switch : Switch) (value : String)
  | unrecognized (arguments : List String)
  | bindingsNotObject
  | bindingsNotJson (complaint : String)
  deriving DecidableEq, Repr

def UsageError.message : UsageError → String
  | .ambiguous written candidates =>
      let names := ", ".intercalate (candidates.map Switch.longName)
      s!"ambiguous option: {written} could match {names}"
  | .expectedValue switch => s!"argument {switch.title}: expected one argument"
  | .ignoredValue switch value =>
      s!"argument {switch.title}: ignored explicit argument {Text.shown value}"
  | .unrecognized arguments =>
      let listed := " ".intercalate arguments
      s!"unrecognized arguments: {listed}"
  | .bindingsNotObject => "--variables must be a JSON object of variable name -> value"
  | .bindingsNotJson complaint => s!"--variables is not valid JSON: {complaint}"

/-- What an argument is taken for. -/
inductive Role where
  | value
  | separator
  | unknown
  | switch (switch : Switch) (explicit : Option String)
  deriving DecidableEq, Repr

def cutAtEquals (cs : List Char) : String × Option String :=
  match cs.dropWhile fun c => c != '=' with
  | [] => (String.ofList cs, none)
  | _ :: value =>
      (String.ofList (cs.takeWhile fun c => c != '='), some (String.ofList value))

/-- The text without the line break at its end.  Of several only the last is left out. -/
def dropFinalBreak (cs : List Char) : List Char :=
  if cs.getLast? = some '\n' then cs.dropLast else cs

/-- Is the text a number without a sign, in decimal digits of any script?  There may be a point
with digits behind it. -/
def isUnsignedNumber (cs : List Char) : Bool :=
  match cs.dropWhile Text.isDigit with
  | [] => !cs.isEmpty
  | '.' :: fraction => !fraction.isEmpty && fraction.all Text.isDigit
  | _ => false

/-- Is the argument written like a negative number?  It may end with a line break. -/
def isNegativeNumber : List Char → Bool
  | '-' :: rest => isUnsignedNumber (dropFinalBreak rest)
  | _ => false

/-- What is left of the text behind the short form of the option for help, `-h`.  Short forms may
be run together behind one dash, so each further `h` asks for help once more. -/
def afterShortHelp (cs : List Char) : Option String :=
  match cs, cs.dropWhile fun c => c == 'h' with
  | [], _ => some ""
  | _ :: _, [] => none
  | _ :: _, rest => some (String.ofList rest)

/-- The options that an argument with dashes may be short for. -/
def candidates (cs : List Char) : List (Switch × Option String) :=
  match cs with
  | '-' :: '-' :: _ =>
      let (written, value) := cutAtEquals cs
      (Switch.all.filter fun switch => written.toList.isPrefixOf switch.longName.toList).map
        fun switch => (switch, value)
  | '-' :: 'h' :: '=' :: rest | '-' :: 'h' :: rest => [(.help, afterShortHelp rest)]
  | _ => []

def roleOf (written : String) : Except UsageError Role :=
  let cs := written.toList
  match cs with
  | '-' :: _ :: _ =>
      match Switch.ofName? written with
      | some switch => .ok (.switch switch none)
      | none =>
        let (name, value) := cutAtEquals cs
        match value, Switch.ofLongName? name with
        | some value, some switch => .ok (.switch switch (some value))
        | _, _ =>
          match candidates cs with
          | [(switch, value)] => .ok (.switch switch value)
          | [] =>
              if isNegativeNumber cs || cs.contains ' ' then .ok .value else .ok .unknown
          | several => .error (.ambiguous written (several.map Prod.fst))
  | _ => .ok .value

/-- What the arguments are taken for.  Two dashes end the options. -/
def roles : List String → Except UsageError (List (String × Role))
  | [] => .ok []
  | written :: rest =>
      if written = "--" then
        .ok ((written, .separator) :: rest.map fun argument => (argument, .value))
      else do
        let role ← roleOf written
        let others ← roles rest
        return (written, role) :: others

inductive Given where
  /-- the next argument, or the text behind the equals sign -/
  | text (value : String)
  /-- what is left if two dashes stand behind the equals sign -/
  | emptyList
  deriving DecidableEq, Repr

/-- What an option is given by the text behind its equals sign. -/
def Given.ofExplicit (value : String) : Given :=
  if value = "--" then .emptyList else .text value

structure Settings where
  aggregate : Bool
  bindings : Given
  operationName : Option Given
  exclude : List Given
  strict : Bool
  deriving DecidableEq, Repr

/-- Why the arguments do not lead to a query: help is asked for, or they are refused. -/
inductive Halt where
  | helped
  | refused (found : UsageError)
  deriving DecidableEq, Repr

namespace Settings

def default : Settings :=
  { aggregate := false, bindings := .text "\x7b\x7d", operationName := none, exclude := [],
    strict := false }

/-- Gives an option its value; the last value counts, except that exclusions add up. -/
def give (settings : Settings) (switch : Switch) (value : Given) : Settings :=
  match switch with
  | .bindings => { settings with bindings := value }
  | .operationName => { settings with operationName := some value }
  | .exclude => { settings with exclude := settings.exclude ++ [value] }
  | .help | .aggregate | .strict => settings

/-- Turns on an option that takes no value.  To ask for help is the end of it. -/
def turnOn (settings : Settings) (switch : Switch) : Except Halt Settings :=
  match switch with
  | .help => .error .helped
  | .aggregate => .ok { settings with aggregate := true }
  | .strict => .ok { settings with strict := true }
  | .bindings | .operationName | .exclude => .ok settings

/-- Goes through the arguments, with the settings and the leftovers so far. -/
def goThrough (settings : Settings) (leftover : List String) :
    List (String × Role) → Except Halt (Settings × List String)
  | [] => .ok (settings, leftover)
  | (_, .switch switch (some value)) :: rest =>
      if switch.takesValue then goThrough (settings.give switch (.ofExplicit value)) leftover rest
      else .error (.refused (.ignoredValue switch value))
  | (_, .switch switch none) :: rest =>
      if switch.takesValue then
        match rest with
        | (value, .value) :: rest => goThrough (settings.give switch (.text value)) leftover rest
        | _ => .error (.refused (.expectedValue switch))
      else do
        let settings ← settings.turnOn switch
        goThrough settings leftover rest
  | (written, .value) :: rest | (written, .separator) :: rest | (written, .unknown) :: rest =>
      goThrough settings (leftover ++ [written]) rest

def ofArguments (arguments : List String) : Except Halt Settings := do
  let sorted ← (roles arguments).mapError .refused
  let (settings, leftover) ← goThrough default [] sorted
  if leftover.isEmpty then return settings else throw (.refused (.unrecognized leftover))

end Settings

end QueryProjection.Command
