import QueryProjection.OrderedMap

/-!
# What a mapped class is made of

A class is mapped to columns of tables.  It has the attributes of the class it extends,
except where it declares one of the same name: its own then hides the inherited one, of
whatever kind both are.  Classes are declared one after the other, each after the one that
it extends, and a `Catalogue` keeps what has been settled so far.

A class with a table of its own is stored in that table together with the tables of the
classes it extends; one without is stored as the class it extends is, and adds its columns
to the table of that class.  So other classes may have put columns there, which a class
treats as follows.

* What it *sees* of its tables is settled when the owner of the last of them is declared.
  It is settled anew, for that table and for those above it, when a class without a table
  adds columns to it.
* Columns that the class it extends leaves unmapped in its table are *withheld*, and so
  are those withheld from the class it extends, unless it declares columns of these names.
* Every column that it sees and that is not withheld becomes an attribute.  A column keeps
  the name under which the first class on the way down has it, and has its name in the
  database if no class has named it.

The withheld columns are told by their names in the database alone, so an inherited
relationship, expression or synonym of such a name is withheld as well.
-/

namespace QueryProjection.Mapped

/-- What an attribute of a class stands for: a column of a name in the database, a
relationship to a target class, with the attribute that leads back, if any, another
attribute, or a value that the database computes. -/
inductive Attribute where
  | column (name : String)
  | relationship (target : String) (backReference : Option String)
  | synonym
  | expression
  deriving DecidableEq, Repr

namespace Attribute

def column? : Attribute → Option String
  | column name => some name
  | _ => none

def target? : Attribute → Option String
  | relationship target _ => some target
  | _ => none

/-- Does an attribute hold a single value of its own? -/
def isScalar : Attribute → Bool
  | column _ | expression => true
  | relationship _ _ | synonym => false

end Attribute

/-- A mapped class, with the attributes that it declares itself.  Its name is what tells it from
all other classes; its title is what it is called, and others may be called the same. -/
structure ClassModel where
  name : String
  title : String := name
  table : Option String
  base : Option String
  attributes : OrderedMap String Attribute
  deriving DecidableEq, Repr

/-- A column of a table: the class that the table belongs to, and the name in the database. -/
structure StoredColumn where
  owner : String
  name : String
  deriving DecidableEq, Repr

/-- The columns that a class declares, as they stand in the table of an owner, with the
attributes that hold them. -/
def ClassModel.columnsIn (owner : String) (declared : ClassModel) : List (StoredColumn × String) :=
  declared.attributes.filterMap fun entry =>
    entry.2.column?.map fun name => (⟨owner, name⟩, entry.1)

structure Outline where
  /-- the classes it extends, from the top, and the class itself -/
  lineage : List String
  /-- those of its lineage that have tables, the one whose table stores its columns last -/
  owners : List String
  attributes : OrderedMap String Attribute
  /-- the columns that its attributes hold -/
  held : List StoredColumn
  /-- the attributes that hold the columns its lineage declares -/
  names : OrderedMap StoredColumn String
  /-- the column names that it leaves out -/
  withheld : List String
  deriving DecidableEq, Repr

namespace Outline

/-- What a class starts from that extends none. -/
def top : Outline := ⟨[], [], [], [], [], []⟩

/-- The attribute under which a column goes, its name in the database if it has no other. -/
def nameIn (names : OrderedMap StoredColumn String) (column : StoredColumn) : String :=
  (OrderedMap.get? names column).getD column.name

/-- Settles a class from the one it extends, the owners of its tables, the columns that it
declares, the names reserved by columns that others declare, and the columns that it sees. -/
def extend (above : Outline) (declared : ClassModel) (owners : List String)
    (own : List (StoredColumn × String)) (reserved : List String) (seen : List StoredColumn) :
    Outline :=
  let withheld := reserved.filter fun name => name ∉ own.map fun entry => entry.1.name
  let held := seen.filter fun column =>
    column.name ∉ withheld || (column ∈ above.held && nameIn above.names column ∉ withheld)
  let inherited := above.attributes.filter fun entry => entry.1 ∉ withheld
  let names := OrderedMap.merge (OrderedMap.ofList own) above.names
  let mapped := held.map fun column => (nameIn names column, Attribute.column column.name)
  { lineage := above.lineage ++ [declared.name]
    owners := owners
    attributes := OrderedMap.merge (OrderedMap.merge inherited mapped) declared.attributes
    held := held
    names := names
    withheld := withheld }

end Outline

/-- What has been settled by the classes declared so far: the columns of all tables, what is
seen through the table of each owner and those above it, and the outlines of the classes. -/
structure Catalogue where
  columns : List StoredColumn
  views : OrderedMap String (List StoredColumn)
  outlines : OrderedMap String Outline
  deriving DecidableEq, Repr

namespace Catalogue

def empty : Catalogue := ⟨[], [], []⟩

def tableOf (catalogue : Catalogue) (owner : String) : List StoredColumn :=
  catalogue.columns.filter fun column => column.owner == owner

/-- What is seen through the tables of some owners: what has been settled for the last. -/
def view (catalogue : Catalogue) (owners : List String) : List StoredColumn :=
  (owners.getLast?.bind (OrderedMap.get? catalogue.views)).getD []

/-- Settles anew what is seen through the tables of some owners, from the top; `seen` is what
is seen above them. -/
def renew (catalogue : Catalogue) (seen : List StoredColumn) : List String → Catalogue
  | [] => catalogue
  | owner :: below =>
      let seen := seen ++ catalogue.tableOf owner
      renew { catalogue with views := OrderedMap.insert catalogue.views owner seen } seen below

def above (catalogue : Catalogue) (declared : ClassModel) : Outline :=
  (declared.base.bind (OrderedMap.get? catalogue.outlines)).getD Outline.top

/-- The names of the columns that a class leaves out unless it declares them: those withheld
from the class it extends, and those that this class does not hold of its own table. -/
def reserved (catalogue : Catalogue) (above : Outline) : List String :=
  let table := (above.owners.getLast?.map catalogue.tableOf).getD []
  above.withheld ++ (table.filter fun column => column ∉ above.held).map StoredColumn.name

/-- Puts the columns that a class declares into a table: its own, or else the one that stores
the class it extends.  The owners of its tables are given, and the columns. -/
def store (catalogue : Catalogue) (above : Outline) (declared : ClassModel)
    (owners : List String) (own : List StoredColumn) : Catalogue :=
  let stored := { catalogue with columns := catalogue.columns ++ own }
  if declared.table.isSome then
    let seen := catalogue.view above.owners ++ own
    { stored with views := OrderedMap.insert stored.views declared.name seen }
  else if own.isEmpty then stored
  else stored.renew [] owners

def declare (catalogue : Catalogue) (declared : ClassModel) : Catalogue :=
  let above := catalogue.above declared
  let owners := above.owners ++ (if declared.table.isSome then [declared.name] else [])
  let own := declared.columnsIn (owners.getLast?.getD declared.name)
  let stored := catalogue.store above declared owners (own.map Prod.fst)
  let outline := above.extend declared owners own (catalogue.reserved above) (stored.view owners)
  { stored with outlines := OrderedMap.insert stored.outlines declared.name outline }

def ofClasses (classes : List ClassModel) : Catalogue := classes.foldl declare empty

end Catalogue

end QueryProjection.Mapped
