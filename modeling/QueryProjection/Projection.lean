import QueryProjection.Datum

/-!
# Projections

A projection tells the data-access layer what to load.  Each name is mapped to a node: a
leaf loads the field as it is, and a relation loads related records, possibly selecting
among their fields and passing arguments on.  A relation that selects nothing in
particular has an empty selection, which is not written out.

`ProjectionParts` holds the two maps that the data-access layer understands, what to select
and what to include; they are merged map by map, the last node given for a name winning.
-/

namespace QueryProjection

inductive Node where
  | leaf
  | relation (select : List (String × Node)) (arguments : List (String × Datum))
  deriving Inhabited, Repr

abbrev ProjectionMap := OrderedMap String Node

namespace Node

/-- The node of a field with a selection set: what was selected below it, and what is passed
on.  If there is neither, the field is loaded as a whole. -/
def ofParts (select : ProjectionMap) (arguments : OrderedMap String Datum) : Node :=
  if select.isEmpty && arguments.isEmpty then .leaf else .relation select arguments

mutual

/-- The node as plain data: true, or an object with the selection first. -/
def toDatum : Node → Datum
  | .leaf => .bool true
  | .relation select arguments =>
      let selected := mapToData select
      .object (if selected.isEmpty then arguments else ("select", .object selected) :: arguments)

def mapToData : List (String × Node) → List (String × Datum)
  | [] => []
  | (name, node) :: rest => (name, node.toDatum) :: mapToData rest

end

end Node

/-- The maps of a projection.  A map that is absent and one that is empty are different. -/
structure ProjectionParts (α : Type u) where
  select : Option (OrderedMap String α)
  included : Option (OrderedMap String α)
  deriving Repr

namespace ProjectionParts

variable {α : Type u}

def empty : ProjectionParts α := { select := none, included := none }

/-- The projection of selected fields; selecting none is asking for none in particular. -/
def ofSelect (select : OrderedMap String α) : ProjectionParts α :=
  if select.isEmpty then empty else { select := some select, included := none }

def mergeMap (base update : Option (OrderedMap String α)) : Option (OrderedMap String α) :=
  match update with
  | none => base
  | some entries => some (OrderedMap.merge (base.getD []) entries)

def mergeOver (base update : ProjectionParts α) : ProjectionParts α :=
  { select := mergeMap base.select update.select
    included := mergeMap base.included update.included }

/-- Merges projections, the last one winning. -/
def merge (projections : List (ProjectionParts α)) : ProjectionParts α :=
  projections.foldl mergeOver empty

/-- The maps that are there, under their names, the selection first.  Results are read as mappings, so
it does not matter which of the two came first in the projections that were merged. -/
def toDatum (write : α → Datum) (parts : ProjectionParts α) : Datum :=
  let entry (name : String) (map : Option (OrderedMap String α)) : List (String × Datum) :=
    match map with
    | none => []
    | some entries => [(name, .object (OrderedMap.mapValues write entries))]
  .object (entry "select" parts.select ++ entry "include" parts.included)

/-- The parts of a projection that is given as plain data.  A map that is null counts as
absent, and what goes by any other name is left behind. -/
def ofDatum (d : Datum) : ProjectionParts Datum :=
  { select := (d.field? "select").bind Datum.fields?
    included := (d.field? "include").bind Datum.fields? }

def mergeData (projections : List Datum) : Datum :=
  (merge (projections.map ofDatum)).toDatum id

end ProjectionParts

abbrev Projection := ProjectionParts Node

end QueryProjection
