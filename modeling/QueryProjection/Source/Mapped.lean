import QueryProjection.Source.Basic
import QueryProjection.Source.Mapped.Catalogue

/-!
# Models of mapped classes and tables

Types may be backed by classes that are mapped to tables, or by tables alone.  The column
attributes and computed expressions of a class are its scalars and its relationships are
its relations; a synonym is another name for an attribute, and neither.  A relationship may
name an attribute that leads back, which then belongs to the class it points to.  A table
alone has no relations, and each of its columns is a scalar, be it declared for the table
or by a class that the table stores.

A relation leads to the type under which its target class is registered, the last such
type if there are several; a class that is not registered goes by its title.
-/

namespace QueryProjection.Mapped

/-- A column of a table: its name in the database, and the key it goes by, if another. -/
structure TableColumn where
  key : Option String
  column : String
  deriving DecidableEq, Repr

/-- A table without a class. -/
structure Table where
  name : String
  columns : List TableColumn
  deriving DecidableEq, Repr

inductive Backing where
  | mapped (className : String)
  | tableOf (className : String)
  | bare (tableName : String)
  deriving DecidableEq, Repr

/-- Declarations, and the types that they back.  A type may be registered with nothing. -/
structure Mapping where
  classes : List ClassModel
  tables : List Table
  types : OrderedMap String (Option Backing)
  deriving DecidableEq, Repr

namespace Mapping

def catalogue (mapping : Mapping) : Catalogue := Catalogue.ofClasses mapping.classes

def titleOf (mapping : Mapping) (className : String) : String :=
  ((mapping.classes.find? fun declared => declared.name == className).map
    ClassModel.title).getD className

/-- The type that a relation to a class leads to. -/
def relatedType (mapping : Mapping) (className : String) : String :=
  let registered := mapping.types.filter fun entry => entry.2 == some (.mapped className)
  (registered.getLast?.map Prod.fst).getD (mapping.titleOf className)

/-- The relations that classes give to a class by leading back from it. -/
def backReferences (mapping : Mapping) (className : String) : List (String × String) :=
  mapping.classes.flatMap fun declaring =>
    declaring.attributes.filterMap fun entry =>
      match entry.2 with
      | .relationship target (some property) =>
          if target = className then some (property, declaring.name) else none
      | _ => none

/-- The relationships of a class, with their target classes.  What leads back to a class it
extends leads back to it as well. -/
def relationships (mapping : Mapping) (outline : Outline) : OrderedMap String String :=
  let outward := outline.attributes.filterMap fun entry =>
    entry.2.target?.map fun target => (entry.1, target)
  OrderedMap.ofList (outward ++ outline.lineage.flatMap mapping.backReferences)

def classFields (mapping : Mapping) (outline : Outline) : ModelFields :=
  { scalars := OrderedMap.keys (outline.attributes.filter fun entry => entry.2.isScalar)
    relations := OrderedMap.mapValues
      (fun target => .type (.text (mapping.relatedType target))) (mapping.relationships outline) }

/-- The columns of the table that stores a class, by their names in the database.  All classes
stored there add theirs. -/
def classTableFields (mapping : Mapping) (outline : Outline) : ModelFields :=
  let table := (outline.owners.getLast?.map mapping.catalogue.tableOf).getD []
  { scalars := table.map StoredColumn.name
    relations := [] }

def tableFields (table : Table) : ModelFields :=
  { scalars := table.columns.map fun column => column.key.getD column.column
    relations := [] }

def backingFields (mapping : Mapping) : Backing → Option ModelFields
  | .mapped className =>
      (OrderedMap.get? mapping.catalogue.outlines className).map mapping.classFields
  | .tableOf className =>
      (OrderedMap.get? mapping.catalogue.outlines className).map mapping.classTableFields
  | .bare tableName =>
      (mapping.tables.find? fun table => table.name == tableName).map tableFields

def describe (mapping : Mapping) (type : String) : Option ModelFields :=
  ((OrderedMap.get? mapping.types type).bind id).bind mapping.backingFields

def source (mapping : Mapping) : Source :=
  Source.ofLookup (OrderedMap.keys mapping.types) mapping.describe (by
    intro name fields h
    refine Classical.byContradiction fun hnot => ?_
    simp [describe, (OrderedMap.get?_eq_none_iff mapping.types name).mpr hnot] at h)

theorem steady_source (mapping : Mapping) : mapping.source.Steady :=
  Source.steady_ofLookup _ _ _

end Mapping

end QueryProjection.Mapped
