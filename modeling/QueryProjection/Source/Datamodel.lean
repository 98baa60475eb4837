import QueryProjection.Datum
import QueryProjection.Source.Basic

/-!
# Models of a datamodel document

A datamodel document lists models with their fields.  A field of kind `object` is a
relation to the model named by its type, and any other field is stored on the model.  The
document is read as far as a question needs it: models are passed until the first one of
the name asked for, and only that one is looked into.  So a key that is missing elsewhere
goes unnoticed, and one that is missing on the way is a fault each time.  The same holds
for values of the wrong shape.
-/

namespace QueryProjection.Datamodel

def required (d : Datum) (key : String) : Except Fault Datum :=
  match d with
  | .object fields =>
      match OrderedMap.get? fields key with
      | some value => .ok value
      | none => .error (.missingKey key)
  | other => .error (.noKeys other.shape)

/-- What there is to go through in a value: the items of a list, the keys of an object, or the
characters of a text. -/
def contents : Datum → Except Fault (List Datum)
  | .list items => .ok items
  | .object fields => .ok ((OrderedMap.keys fields).map Datum.text)
  | .text value => .ok (value.toList.map fun c => .text (String.singleton c))
  | other => .error (.noItems other.shape)

def relationKind : String := "object"

/-- Adds a stored field.  A list or an object cannot be its name. -/
def addScalar (fields : ModelFields) (name : Datum) : Except Fault ModelFields :=
  match name.key? with
  | none => .error (.noName name.shape)
  | some (.text name) => .ok { fields with scalars := fields.scalars ++ [name] }
  | some key =>
      let first := (OrderedMap.get? fields.unnamedScalars key).getD name
      .ok { fields with unnamedScalars := OrderedMap.insert fields.unnamedScalars key first }

/-- Adds a relation.  A list or an object cannot be its name. -/
def addRelation (fields : ModelFields) (name : Datum) (target : RelationTarget) :
    Except Fault ModelFields :=
  match name.key? with
  | none => .error (.noName name.shape)
  | some (.text name) =>
      .ok { fields with relations := OrderedMap.insert fields.relations name target }
  | some key =>
      let first := ((OrderedMap.get? fields.unnamedRelations key).map Prod.fst).getD name
      .ok { fields with
        unnamedRelations := OrderedMap.insert fields.unnamedRelations key (first, target) }

/-- Adds a field as the document writes it.  Of a relation the type is looked at before the
name. -/
def addField (fields : ModelFields) (field : Datum) : Except Fault ModelFields := do
  let kind ← required field "kind"
  if kind.text? = some relationKind then
    let type ← required field "type"
    let name ← required field "name"
    addRelation fields name (.ofDatum type)
  else
    let name ← required field "name"
    addScalar fields name

def fieldsOver (before : ModelFields) : List Datum → Except Fault ModelFields
  | [] => .ok before
  | field :: rest => do
      let fields ← addField before field
      fieldsOver fields rest

def fieldsOf (model : Datum) : Except Fault ModelFields := do
  let fields ← contents (← required model "fields")
  fieldsOver { scalars := [], relations := [] } fields

/-- The fields of the first model with the name. -/
def describe (type : Key) : List Datum → Except Fault (Option ModelFields)
  | [] => .ok none
  | model :: rest =>
      match required model "name" with
      | .error fault => .error fault
      | .ok name =>
          if name.key? = some type ∧ type.comparable then (fieldsOf model).map some
          else describe type rest

def names (models : List Datum) : List Key :=
  models.filterMap fun model => (model.field? "name").bind Datum.key?

theorem field?_of_required {d value : Datum} {key : String} (h : required d key = .ok value) :
    d.field? key = some value := by
  unfold required at h
  split at h
  · rename_i fields
    split at h
    · rename_i found hfound
      cases h
      simpa [Datum.field?, Datum.fields?] using hfound
    · cases h
  · cases h

theorem mem_names_of_describe {type : Key} {models : List Datum} {fields : ModelFields}
    (h : describe type models = .ok (some fields)) : type ∈ names models := by
  induction models with
  | nil => simp [describe] at h
  | cons model rest ih =>
      unfold describe at h
      split at h
      · simp at h
      · rename_i name hname
        have hfield := field?_of_required hname
        split at h
        · rename_i hnamed
          simp [names, hfield, hnamed.1]
        · have hrest : type ∈ names rest := ih h
          obtain ⟨found, hfound, hnamed⟩ := List.mem_filterMap.mp hrest
          exact List.mem_filterMap.mpr ⟨found, List.mem_cons_of_mem _ hfound, hnamed⟩

def source (models : Datum) : Source where
  types := match contents models with
    | .ok items => names items
    | .error _ => []
  answer _ type :=
    match contents models with
    | .ok items => describe type items
    | .error fault => .error fault
  listed := by
    intro _ type fields h
    split at h
    · exact mem_names_of_describe h
    · cases h

/-- The source of a document.  Only the way to the models is read at once. -/
def ofDocument (document : Datum) : Except Fault Source := do
  let datamodel ← required document "datamodel"
  let models ← required datamodel "models"
  return source models

theorem steady_source (models : Datum) : (source models).Steady := fun _ _ _ => rfl

end QueryProjection.Datamodel
