import QueryProjection.Compile
import QueryProjection.Conversion
import QueryProjection.Options
import QueryProjection.Projection

/-!
# From selections to projections

A selection set is walked in document order.  Each field that its filter keeps writes a
node under its name, over any node written before; each fragment, spread or inline, is
walked where it stands and its nodes are written over those so far.

Where models are known, every place has an effective type.  A relation leads to the type
it relates to, a fragment to its type condition if that is a known model, and any other
field with a selection set to a place without a type, where nothing is filtered by model.

Selections are finite, but fragments may spread each other in a circle.  The walk keeps
the fragments being expanded, each with the type at which it was entered, and stops where
one is entered again at the same type: from there on everything would repeat itself.  A
fragment may well be entered again at another type.  Since there are finitely many pairs
of a fragment and a type, `budget` rounds of nested entering are never used up before one
repeats.
-/

namespace QueryProjection

/-- What stays the same while the selections of a field are walked. -/
structure Context where
  fragments : Option FragmentTable
  bindings : Option Bindings
  options : Options

namespace Context

def filterAt (context : Context) (type : Option TypeName) : Compile FieldFilter :=
  match context.options.target, type with
  | some target, some name => do
      let issued ← Compile.ofLookup
        (Registry.fieldFilter target.source name context.options.exclude)
      return issued.filter
  | _, _ => return { fields := none, exclude := context.options.exclude }

def typeBelow (context : Context) (type : Option TypeName) (field : String) (kind : FieldKind) :
    Compile (Option TypeName) :=
  match kind, context.options.target, type with
  | .relation, some target, some name =>
      Compile.ofLookup (Registry.typeBelow target.source name field)
  | _, _, _ => return none

/-- The type of the place inside a fragment.  A condition that is no known model leaves the
type as it is. -/
def typeWithin (context : Context) (type : Option TypeName) (condition : Option String) :
    Compile (Option TypeName) :=
  match context.options.target, type, condition with
  | some target, some outer, some inner => do
      if ← Compile.ofLookup (Registry.hasType target.source (.text inner)) then
        return some (.text inner)
      else do
        Compile.note (.conditionUnknown inner outer)
        return some outer
  | _, _, _ => return type

def fragment? (context : Context) (name : String) : Compile (Option Fragment) :=
  Compile.ofLogged (resolveFragment name context.fragments context.options.strict)

def forwarded (context : Context) (arguments : List Argument) : Compile (OrderedMap String Datum) :=
  Compile.ofLogged
    (forwardArguments arguments context.bindings context.options.strict relationArguments)

end Context

abbrev Enter := String → Fragment → Option TypeName → Compile ProjectionMap

namespace Expansion

mutual

/-- Writes the nodes of some selections over those written so far. -/
def writeAll (context : Context) (enter : Enter) (type : Option TypeName) (filter : FieldFilter)
    (before : ProjectionMap) : List Selection → Compile ProjectionMap
  | [] => return before
  | selection :: rest => do
      let written ← writeOne context enter type filter before selection
      writeAll context enter type filter written rest

def writeOne (context : Context) (enter : Enter) (type : Option TypeName) (filter : FieldFilter)
    (before : ProjectionMap) : Selection → Compile ProjectionMap
  | .field _ name arguments _ selectionSet =>
      match filter.classify name with
      | none => do
          Compile.note (.fieldDropped name type)
          return before
      | some kind =>
          match selectionSet with
          | none => return OrderedMap.insert before name .leaf
          | some selections => do
              let below ← context.typeBelow type name kind
              let inner ← context.filterAt below
              let select ← writeAll context enter below inner [] selections
              let forwarded ← context.forwarded arguments
              return OrderedMap.insert before name (.ofParts select forwarded)
  | .spread name _ => do
      match ← context.fragment? name with
      | none => return before
      | some fragment =>
          let within ← context.typeWithin type (some fragment.condition)
          return OrderedMap.merge before (← enter name fragment within)
  | .inline condition _ selections => do
      let within ← context.typeWithin type condition
      let inner ← context.filterAt within
      return OrderedMap.merge before (← writeAll context enter within inner [] selections)
  | .other name => Compile.stop (.unexpectedSelection name)

end

/-- The nodes of a selection set at a place of the given type. -/
def selectionSet (context : Context) (enter : Enter) (type : Option TypeName)
    (selections : List Selection) : Compile ProjectionMap := do
  let filter ← context.filterAt type
  writeAll context enter type filter [] selections

/-- Expands a fragment, nested at most so deep, while the given ones are being expanded. -/
def enterWithin (context : Context) : Nat → List (String × Option Key) → Enter
  | 0, _ => fun name _ type => Compile.stop (.endlessExpansion name type)
  | depth + 1, active => fun name fragment type =>
      let entry := (name, type.map TypeName.key)
      if active.contains entry then Compile.stop (.endlessExpansion name type)
      else selectionSet context (enterWithin context depth (entry :: active)) type
        fragment.selections

/-- The number of pairs of a fragment and an effective type, plus one for the entry that
repeats one of them.  A type has a filter only if it is remembered or described. -/
def budget (context : Context) (memory : Memory) : Nat :=
  let types := match context.options.target with
    | none => 1
    | some target =>
        target.source.types.length + memory.cache.length + memory.filters.length + 1
  (context.fragments.getD []).length * types + 1

end Expansion

open Expansion

namespace Context

def root (context : Context) : Option TypeName :=
  context.options.target.map fun target => .text target.model

/-- The root model must be known, even if nothing is selected from it. -/
def checkRoot (context : Context) : Compile Unit :=
  match context.options.target with
  | none => pure ()
  | some target => do
      let _ ← Compile.ofLookup (Registry.modelFields target.source (.text target.model))

end Context

/-- The nodes of the selection set of a field, given how fragments are entered. -/
def compileEntering (context : Context) (entering : Memory → Enter)
    (selections : Option (List Selection)) : Compile ProjectionMap := do
  context.checkRoot
  let memory ← Compile.remembered
  selectionSet context (entering memory) context.root (selections.getD [])

def compileSelections (context : Context) (selections : Option (List Selection)) :
    Compile ProjectionMap :=
  compileEntering context (fun memory => enterWithin context (budget context memory) []) selections

/-- The nodes of several selection sets, each written over those before it. -/
def compileOver (context : Context) (before : ProjectionMap) :
    List Field → Compile ProjectionMap
  | [] => return before
  | field :: rest => do
      let written ← compileSelections context field.selectionSet
      compileOver context (OrderedMap.merge before written) rest

/-- The projection of a field that is selected by one or more nodes. -/
def compileFields (context : Context) (nodes : List Field) : Compile Projection := do
  return ProjectionParts.ofSelect (← compileOver context [] nodes)

end QueryProjection
