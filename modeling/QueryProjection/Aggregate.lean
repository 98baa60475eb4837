import QueryProjection.Document.Query
import QueryProjection.Logged
import QueryProjection.Projection

/-!
# Aggregates

The selection set of an aggregate field names aggregates, and below each of them the
fields to aggregate.  Counting is special: it may also count all records, be it because
nothing in particular is selected below it or because the field for all records is.  An
aggregate that has nothing to aggregate is left out.

Only fields that stand directly in a selection set count.  Fragments are passed over, with
a notice for each.

Beside the fields of a model, a count asks how many records each relation has;
`relationCounts` gives the projection for that.
-/

namespace QueryProjection

inductive AggregateKind where
  | count
  | average
  | sum
  | minimum
  | maximum
  deriving DecidableEq, Repr

namespace AggregateKind

def fieldName : AggregateKind → String
  | .count => "_count"
  | .average => "_avg"
  | .sum => "_sum"
  | .minimum => "_min"
  | .maximum => "_max"

def all : List AggregateKind := [.count, .average, .sum, .minimum, .maximum]

def ofField? (name : String) : Option AggregateKind := all.find? fun kind => kind.fieldName == name

end AggregateKind

/-- The field that names the type of a record. -/
def typenameField : String := "__typename"

/-- The field that, below a count, asks to count all records. -/
def allRecordsField : String := "_all"

/-- What is aggregated: all records, or the values of fields, each named once. -/
inductive Aggregated where
  | allRecords
  | fields (names : List String)
  deriving DecidableEq, Repr

def Aggregated.toDatum : Aggregated → Datum
  | .allRecords => .bool true
  | .fields names => .object (names.map fun name => (name, .bool true))

abbrev AggregateProjection := OrderedMap String Aggregated

namespace Aggregate

/-- The fields that stand directly among the selections, with a notice for every selection
that is no field. -/
def directFields : List Selection → Logged (List Field)
  | [] => return []
  | selection :: rest =>
      match selection.field? with
      | some field => do
          let others ← directFields rest
          return field :: others
      | none => do
          Logged.note (.selectionIgnored selection.label)
          directFields rest

/-- What is aggregated below one aggregate, if anything, from the fields that are named in
particular. -/
def ofParticular (kind : AggregateKind) (names : List String) : Option Aggregated :=
  if !names.isEmpty then some (.fields names)
  else if kind = .count then some .allRecords
  else none

/-- What is aggregated below one aggregate, if anything, from the names of its fields and those
named before them. -/
def ofNamesOver (kind : AggregateKind) (before : List String) : List String → Option Aggregated
  | [] => ofParticular kind before
  | name :: rest =>
      if name = typenameField then ofNamesOver kind before rest
      else if name = allRecordsField then
        -- to count all records is to count, whatever else is named
        if kind = .count then some .allRecords else ofNamesOver kind before rest
      else ofNamesOver kind (if before.contains name then before else before ++ [name]) rest

def ofNames (kind : AggregateKind) (names : List String) : Option Aggregated :=
  ofNamesOver kind [] names

/-- What one aggregate field aggregates, if anything. -/
def ofField (kind : AggregateKind) (field : Field) : Logged (Option Aggregated) :=
  match field.selectionSet with
  | none => return if kind = .count then some .allRecords else none
  | some selections => do
      let nested ← directFields selections
      return ofNames kind (nested.map Field.name)

def writeAll (before : AggregateProjection) : List Field → Logged AggregateProjection
  | [] => return before
  | field :: rest =>
      match AggregateKind.ofField? field.name with
      | none => writeAll before rest
      | some kind => do
          match ← ofField kind field with
          | none => writeAll before rest
          | some aggregated => writeAll (OrderedMap.insert before field.name aggregated) rest

def ofSelections (selections : Option (List Selection)) : Logged AggregateProjection := do
  let fields ← directFields (selections.getD [])
  writeAll [] fields

/-- The aggregates of several nodes, each written over those before it. -/
def ofNodesOver (before : AggregateProjection) : List Field → Logged AggregateProjection
  | [] => return before
  | node :: rest => do
      let aggregates ← ofSelections node.selectionSet
      ofNodesOver (OrderedMap.merge before aggregates) rest

/-- The aggregates of a field that is selected by one or more nodes. -/
def ofNodes (nodes : List Field) : Logged AggregateProjection := ofNodesOver [] nodes

def toDatum (projection : AggregateProjection) : Datum :=
  .object (OrderedMap.mapValues Aggregated.toDatum projection)

/-- Asks for the counts of the named relations, over those asked for so far. -/
def countOver (before : ProjectionMap) (names : List String) : ProjectionMap :=
  names.foldl (fun counts name =>
    if name = typenameField then counts else OrderedMap.insert counts name .leaf) before

/-- Asks for the counts of the relations that are named below some fields. -/
def countsOver (before : ProjectionMap) : List Field → Logged ProjectionMap
  | [] => return before
  | field :: rest => do
      if field.name = AggregateKind.count.fieldName then
        let nested ← directFields (field.selectionSet.getD [])
        countsOver (countOver before (nested.map Field.name)) rest
      else countsOver before rest

/-- The projection that counts related records, for the selection set of a model. -/
def relationCounts (selections : Option (List Selection)) : Logged ProjectionMap := do
  let fields ← directFields (selections.getD [])
  let counts ← countsOver [] fields
  if counts.isEmpty then return []
  else return [(AggregateKind.count.fieldName, .relation counts [])]

end Aggregate

end QueryProjection
