import QueryProjection.Aggregate
import QueryProjection.Proofs.Conversion
import QueryProjection.Proofs.Merging

/-!
# What aggregates come to

An aggregate is asked for by a field, and a field by those below it.  `valueOf` says what a single
such field is worth, and it may be worth nothing.  Going through the fields, a later one overwrites
an earlier one of the same aggregate, unless it is worth nothing.  So under each aggregate stands
what the last field of its name is worth that is worth anything (`ofNodes_last_worth`).

The names below an aggregate are gone through one by one, and a count ends at the field for all
records.  `ofNamesOver_eq` says what this comes to: the order of the names matters for nothing but
the order of the fields that are aggregated.
-/

namespace QueryProjection

/-- Do the values stand for the same, if the order of fields does not matter? -/
def Datum.SameMap (value value' : Datum) : Prop :=
  value = value' ∨ ∃ fields fields' : List (String × Datum),
    value = .object fields ∧ value' = .object fields' ∧ fields.Perm fields'

def Datum.isEmptyMap : Datum → Bool
  | .object [] => true
  | _ => false

theorem AggregateKind.ofField?_fieldName (kind : AggregateKind) :
    ofField? kind.fieldName = some kind := by
  cases kind <;> rfl

theorem AggregateKind.fieldName_of_ofField? {name : String} {kind : AggregateKind}
    (h : ofField? name = some kind) : name = kind.fieldName := by
  have hname := List.find?_some h
  exact (beq_iff_eq.mp hname).symm

namespace Aggregate

/-! ### The fields below a field -/

/-- The fields that are selected directly below a field. -/
def fieldsBelow (field : Field) : List Field := Selection.fields (field.selectionSet.getD [])

def namesBelow (field : Field) : List String := (fieldsBelow field).map Field.name

/-- The field without what is selected below it other than fields. -/
def onlyFields (field : Field) : Field :=
  { field with selectionSet := field.selectionSet.map fun selections =>
      selections.filter fun selection => selection.field?.isSome }

def onlyFieldsBelow : Selection → Selection
  | .field aliasName name arguments directives (some selections) =>
      .field aliasName name arguments directives
        (some (selections.filter fun selection => selection.field?.isSome))
  | selection => selection

/-- A node without the fragments that it selects, and without those below the fields. -/
def withoutFragments (node : Field) : Field :=
  { onlyFields node with
    selectionSet := (onlyFields node).selectionSet.map fun selections =>
      selections.map onlyFieldsBelow }

theorem fields_filter (selections : List Selection) :
    Selection.fields (selections.filter fun selection => selection.field?.isSome) =
      Selection.fields selections := by
  rw [Selection.fields, List.filterMap_filter]
  refine List.filterMap_congr fun selection _ => ?_
  cases selection.field? <;> rfl

theorem field?_onlyFieldsBelow (selection : Selection) :
    (onlyFieldsBelow selection).field? = selection.field?.map onlyFields := by
  cases selection with
  | field aliasName name arguments directives selections => cases selections <;> rfl
  | spread | inline | other => rfl

theorem fieldsBelow_withoutFragments (node : Field) :
    fieldsBelow (withoutFragments node) = (fieldsBelow node).map onlyFields := by
  obtain ⟨aliasName, name, arguments, directives, selections⟩ := node
  cases selections with
  | none => rfl
  | some selections =>
      show Selection.fields ((selections.filter _).map onlyFieldsBelow) =
        (Selection.fields selections).map onlyFields
      rw [← fields_filter selections, Selection.fields, Selection.fields, List.filterMap_map,
        List.map_filterMap]
      exact List.filterMap_congr fun selection _ => field?_onlyFieldsBelow selection

theorem result_directFields (selections : List Selection) :
    (directFields selections).result = .ok (Selection.fields selections) := by
  induction selections with
  | nil => rfl
  | cons selection rest ih =>
      rw [directFields, Selection.fields, List.filterMap_cons]
      cases selection.field? with
      | none =>
          rw [Logged.result_bind]
          exact ih
      | some field =>
          rw [Logged.result_bind, ih]
          rfl

/-! ### What one field is worth -/

def allTrue (names : List String) : Datum :=
  .object (names.eraseDups.map fun name => (name, .bool true))

/-- What a field that asks for an aggregate is worth.  A count of nothing in particular counts all
records; any other aggregate of nothing is worth nothing. -/
def valueOf (kind : AggregateKind) (child : Field) : Datum :=
  let named := (namesBelow child).filter fun name => name ≠ typenameField
  if kind = .count then
    if child.selectionSet.isNone ∨ allRecordsField ∈ namesBelow child ∨ named = [] then .bool true
    else allTrue named
  else allTrue (named.filter fun name => name ≠ allRecordsField)

def particular (names : List String) : List String :=
  names.filter fun name => name ≠ typenameField ∧ name ≠ allRecordsField

theorem eraseDups_once (before rest : List String) (name : String) :
    ((if before.contains name then before else before ++ [name]) ++ rest).eraseDups =
      (before ++ name :: rest).eraseDups := by
  split
  · rename_i hbefore
    have hremoved : (name :: rest).removeAll before = rest.removeAll before := by
      rw [List.removeAll, List.filter_cons_of_neg (by simpa using hbefore)]
      rfl
    rw [List.eraseDups_append, List.eraseDups_append, hremoved]
  · rw [List.append_assoc, List.singleton_append]

/-- Going through the names, one comes to the field for all records, or else has all other names in
the end. -/
theorem ofNamesOver_eq (kind : AggregateKind) (names : List String) :
    ∀ {before : List String}, before.Nodup → ofNamesOver kind before names =
      if kind = .count ∧ allRecordsField ∈ names then some .allRecords
      else ofParticular kind (before ++ particular names).eraseDups := by
  induction names with
  | nil =>
      intro before hbefore
      rw [ofNamesOver, particular, List.filter_nil, List.append_nil,
        OrderedMap.eraseDups_of_nodup hbefore, if_neg fun h => List.not_mem_nil h.2]
  | cons name rest ih =>
      intro before hbefore
      rw [ofNamesOver]
      by_cases htypename : name = typenameField
      · have hall : allRecordsField ∈ name :: rest ↔ allRecordsField ∈ rest := by
          rw [htypename, List.mem_cons, or_iff_right (by decide)]
        rw [if_pos htypename, ih hbefore, particular, particular,
          List.filter_cons_of_neg (by simp [htypename])]
        simp only [hall]
      rw [if_neg htypename]
      by_cases hallRecords : name = allRecordsField
      · rw [if_pos hallRecords]
        by_cases hcount : kind = .count
        · rw [if_pos hcount, if_pos ⟨hcount, hallRecords ▸ List.mem_cons_self ..⟩]
        · rw [if_neg hcount, ih hbefore, if_neg fun h => hcount h.1, if_neg fun h => hcount h.1,
            particular, particular, List.filter_cons_of_neg (by simp [hallRecords])]
      · have hall : allRecordsField ∈ name :: rest ↔ allRecordsField ∈ rest := by
          rw [List.mem_cons, or_iff_right (Ne.symm hallRecords)]
        have honce : (if before.contains name then before else before ++ [name]).Nodup := by
          split
          · exact hbefore
          · rename_i hnew
            rw [List.contains_eq_mem, decide_eq_true_eq] at hnew
            exact List.nodup_append.mpr ⟨hbefore, List.nodup_singleton name,
              fun other hother _ hsame heq => hnew (by
                rw [List.mem_singleton] at hsame
                exact hsame ▸ heq ▸ hother)⟩
        rw [if_neg hallRecords, ih honce, eraseDups_once, particular, particular,
          List.filter_cons_of_pos (by simp [htypename, hallRecords])]
        simp only [hall]

theorem nodup_of_ofNames {kind : AggregateKind} {names fields : List String}
    (h : ofNames kind names = some (.fields fields)) : fields.Nodup := by
  rw [ofNames, ofNamesOver_eq kind names List.nodup_nil, List.nil_append] at h
  split at h
  · cases h
  · rw [ofParticular] at h
    split at h
    · cases h
      exact OrderedMap.nodup_eraseDups _
    · split at h
      · cases h
      · cases h

def aggregatedOf (kind : AggregateKind) (field : Field) : Option Aggregated :=
  ofNames kind (namesBelow field)

theorem result_ofField (kind : AggregateKind) (field : Field) :
    (ofField kind field).result = .ok (aggregatedOf kind field) := by
  obtain ⟨aliasName, name, arguments, directives, selections⟩ := field
  cases selections with
  | none => cases kind <;> rfl
  | some selections =>
      rw [ofField, Logged.result_bind, result_directFields]
      rfl

theorem isEmptyMap_allTrue (names : List String) :
    (allTrue names).isEmptyMap = true ↔ names = [] := by
  cases names with
  | nil => simp [allTrue, Datum.isEmptyMap]
  | cons name rest => simp [allTrue, List.eraseDups_cons, Datum.isEmptyMap]

/-- Below an aggregate without a selection set stands nothing, as below an empty one. -/
theorem valueOf_eq (kind : AggregateKind) (child : Field) :
    valueOf kind child =
      if kind = .count ∧ (allRecordsField ∈ namesBelow child ∨ particular (namesBelow child) = [])
      then .bool true else allTrue (particular (namesBelow child)) := by
  have hsplit : particular (namesBelow child) = ((namesBelow child).filter fun name =>
      name ≠ typenameField).filter fun name => name ≠ allRecordsField := by
    rw [List.filter_filter, particular]
    exact List.filter_congr fun name _ => by simp [and_comm]
  have hnone : child.selectionSet.isNone → namesBelow child = [] := by
    intro hset
    rw [namesBelow, fieldsBelow, Option.isNone_iff_eq_none.mp hset]
    rfl
  unfold valueOf
  dsimp only
  by_cases hcount : kind = .count
  · rw [if_pos hcount]
    by_cases hall : allRecordsField ∈ namesBelow child
    · rw [if_pos (Or.inr (Or.inl hall)), if_pos ⟨hcount, Or.inl hall⟩]
    · have hnamed : particular (namesBelow child) =
          (namesBelow child).filter fun name => name ≠ typenameField := by
        rw [hsplit, List.filter_eq_self]
        intro name hname
        simp only [decide_eq_true_eq]
        exact fun heq => hall (heq ▸ (List.mem_filter.mp hname).1)
      rw [hnamed]
      by_cases hempty : (namesBelow child).filter (fun name => name ≠ typenameField) = []
      · rw [if_pos (Or.inr (Or.inr hempty)), if_pos ⟨hcount, Or.inr hempty⟩]
      · rw [if_neg, if_neg]
        · exact fun h => h.2.elim hall hempty
        · rintro (hset | hmem | hnil)
          · exact hempty (by rw [hnone hset, List.filter_nil])
          · exact hall hmem
          · exact hempty hnil
  · rw [if_neg hcount, if_neg fun h => hcount h.1, hsplit]

theorem ofParticular_nil (kind : AggregateKind) :
    ofParticular kind [] = if kind = .count then some .allRecords else none :=
  rfl

theorem ofParticular_of_ne_nil (kind : AggregateKind) {names : List String} (h : names ≠ []) :
    ofParticular kind names.eraseDups = some (.fields names.eraseDups) := by
  obtain ⟨name, rest, rfl⟩ := List.exists_cons_of_ne_nil h
  rw [List.eraseDups_cons]
  rfl

/-- What a field aggregates is what it is worth, if it is worth anything. -/
theorem toDatum_aggregatedOf (kind : AggregateKind) (child : Field) :
    (aggregatedOf kind child).map Aggregated.toDatum =
      if (valueOf kind child).isEmptyMap then none else some (valueOf kind child) := by
  rw [aggregatedOf, ofNames, ofNamesOver_eq kind _ List.nodup_nil, List.nil_append]
  by_cases hall : kind = .count ∧ allRecordsField ∈ namesBelow child
  · have hvalue : valueOf kind child = .bool true := by
      rw [valueOf_eq, if_pos ⟨hall.1, Or.inl hall.2⟩]
    rw [if_pos hall, hvalue]
    rfl
  · rw [if_neg hall]
    by_cases hempty : particular (namesBelow child) = []
    · rw [hempty, List.eraseDups_nil, ofParticular_nil]
      by_cases hcount : kind = .count
      · have hvalue : valueOf kind child = .bool true := by
          rw [valueOf_eq, if_pos ⟨hcount, Or.inr hempty⟩]
        rw [if_pos hcount, hvalue]
        rfl
      · have hvalue : valueOf kind child = allTrue [] := by
          rw [valueOf_eq, if_neg fun h => hcount h.1, hempty]
        rw [if_neg hcount, hvalue]
        rfl
    · have hvalue : valueOf kind child = allTrue (particular (namesBelow child)) := by
        rw [valueOf_eq, if_neg fun h => h.2.elim (fun hmem => hall ⟨h.1, hmem⟩) hempty]
      rw [ofParticular_of_ne_nil kind hempty, hvalue,
        if_neg fun h => hempty ((isEmptyMap_allTrue _).mp h)]
      rfl

/-! ### One field after another -/

/-- The entry that a field writes, if it asks for an aggregate and is worth anything. -/
def written (field : Field) : Option (String × Aggregated) :=
  (AggregateKind.ofField? field.name).bind fun kind =>
    (aggregatedOf kind field).map fun aggregated => (field.name, aggregated)

theorem result_writeAll (fields : List Field) :
    ∀ before, (writeAll before fields).result =
      .ok (OrderedMap.merge before (fields.filterMap written)) := by
  induction fields with
  | nil => exact fun before => rfl
  | cons field rest ih =>
      intro before
      rw [writeAll, List.filterMap_cons, written]
      cases AggregateKind.ofField? field.name with
      | none => exact ih before
      | some kind =>
          dsimp only [Option.bind_some]
          rw [Logged.result_bind, result_ofField, ok_bind]
          cases aggregatedOf kind field with
          | none => exact ih before
          | some aggregated => exact ih _

theorem result_ofSelections (selections : Option (List Selection)) :
    (ofSelections selections).result =
      .ok (OrderedMap.ofList ((Selection.fields (selections.getD [])).filterMap written)) := by
  rw [ofSelections, Logged.result_bind, result_directFields, ok_bind]
  exact result_writeAll _ []

theorem result_ofNodesOver (nodes : List Field) :
    ∀ before, (ofNodesOver before nodes).result =
      .ok (OrderedMap.merge before ((nodes.flatMap fieldsBelow).filterMap written)) := by
  induction nodes with
  | nil => exact fun before => rfl
  | cons node rest ih =>
      intro before
      rw [ofNodesOver, Logged.result_bind, result_ofSelections, ok_bind, ih,
        OrderedMap.merge_ofList, ← OrderedMap.merge_append, List.flatMap_cons,
        List.filterMap_append]
      rfl

theorem result_ofNodes (nodes : List Field) :
    (ofNodes nodes).result =
      .ok (OrderedMap.ofList ((nodes.flatMap fieldsBelow).filterMap written)) :=
  result_ofNodesOver nodes []

def entryOf (field : Field) : Option (String × Datum) :=
  (AggregateKind.ofField? field.name).bind fun kind =>
    if (valueOf kind field).isEmptyMap then none else some (field.name, valueOf kind field)

def entriesOf (fields : List Field) : List (String × Datum) := fields.filterMap entryOf

theorem toDatum_ofList (fields : List Field) :
    toDatum (OrderedMap.ofList (fields.filterMap written)) =
      .object (OrderedMap.ofList (entriesOf fields)) := by
  rw [toDatum, OrderedMap.mapValues_ofList, OrderedMap.mapValues, List.map_filterMap, entriesOf]
  congr 2
  refine List.filterMap_congr fun field _ => ?_
  rw [written, entryOf]
  cases AggregateKind.ofField? field.name with
  | none => rfl
  | some kind =>
      calc
        _ = ((aggregatedOf kind field).map Aggregated.toDatum).map fun value =>
            (field.name, value) := by
          simp only [Option.bind_some, Option.map_map]
          rfl
        _ = _ := by
          rw [toDatum_aggregatedOf]
          split
          · rename_i hempty
            exact (if_pos hempty).symm
          · rename_i hsome
            exact (if_neg hsome).symm

/-! ### What stands under an aggregate -/

/-- The fields that ask for an aggregate, in the order in which they are selected. -/
def asking (kind : AggregateKind) (nodes : List Field) : List Field :=
  (nodes.flatMap fieldsBelow).filter fun child => child.name = kind.fieldName

/-- Among the entries of some fields, those of an aggregate are what the fields that ask for it are
worth, where they are worth anything. -/
theorem entriesOf_named (kind : AggregateKind) (fields : List Field) :
    ((entriesOf fields).filter fun entry => entry.1 = kind.fieldName).map Prod.snd =
      ((fields.filter fun child => child.name = kind.fieldName).map (valueOf kind)).filter
        fun value => !value.isEmptyMap := by
  induction fields with
  | nil => rfl
  | cons field rest ih =>
      rw [entriesOf, List.filterMap_cons, entryOf]
      by_cases hname : field.name = kind.fieldName
      · have hkind : AggregateKind.ofField? field.name = some kind := by
          rw [hname, AggregateKind.ofField?_fieldName]
        rw [List.filter_cons_of_pos (by simpa using hname), List.map_cons, List.filter_cons, ← ih,
          hkind, Option.bind_some]
        cases (valueOf kind field).isEmptyMap with
        | true => rfl
        | false =>
            rw [if_neg Bool.false_ne_true, List.filter_cons_of_pos (by simpa using hname)]
            rfl
      · rw [List.filter_cons_of_neg (by simpa using hname), ← ih]
        cases AggregateKind.ofField? field.name with
        | none => rfl
        | some other =>
            rw [Option.bind_some]
            cases (valueOf other field).isEmptyMap with
            | true => rfl
            | false =>
                rw [if_neg Bool.false_ne_true, List.filter_cons_of_neg (by simpa using hname)]
                rfl

theorem exists_of_mem_entriesOf {fields : List Field} {entry : String × Datum}
    (h : entry ∈ entriesOf fields) :
    ∃ kind field, entry.1 = AggregateKind.fieldName kind ∧ entry.2 = valueOf kind field ∧
      entry.2.isEmptyMap = false := by
  obtain ⟨field, -, hfield⟩ := List.mem_filterMap.mp h
  rw [entryOf] at hfield
  obtain ⟨kind, hkind, hentry⟩ := Option.bind_eq_some_iff.mp hfield
  split at hentry
  · cases hentry
  · rename_i hsome
    cases hentry
    exact ⟨kind, field, AggregateKind.fieldName_of_ofField? hkind, rfl, Bool.eq_false_iff.mpr hsome⟩

/-- What is worth anything is true, or has fields that are true. -/
theorem true_or_fields (kind : AggregateKind) (child : Field)
    (h : (valueOf kind child).isEmptyMap = false) :
    valueOf kind child = .bool true ∨ ∃ names, names ≠ [] ∧ valueOf kind child = allTrue names := by
  rw [valueOf_eq] at h ⊢
  split
  · exact Or.inl rfl
  · rename_i hnot
    rw [if_neg hnot] at h
    exact Or.inr ⟨_, fun hnil => Bool.eq_false_iff.mp h ((isEmptyMap_allTrue _).mpr hnil), rfl⟩

/-! ### What does not matter -/

theorem written_onlyFields (child : Field) : written (onlyFields child) = written child := by
  have hnames : namesBelow (onlyFields child) = namesBelow child := by
    obtain ⟨aliasName, name, arguments, directives, selections⟩ := child
    cases selections with
    | none => rfl
    | some selections => exact congrArg (List.map Field.name) (fields_filter selections)
  simp only [written, aggregatedOf, hnames]
  rfl

/-- Two fields of one name, below which the same names stand, in any order. -/
structure AskAlike (child child' : Field) : Prop where
  name : child'.name = child.name
  below : (namesBelow child).Perm (namesBelow child')

theorem AskAlike.sameMap {child child' : Field} (h : AskAlike child child')
    (kind : AggregateKind) : (valueOf kind child).SameMap (valueOf kind child') := by
  have hparticular : (particular (namesBelow child)).Perm (particular (namesBelow child')) :=
    h.below.filter _
  have hcond : (kind = .count ∧ (allRecordsField ∈ namesBelow child ∨
      particular (namesBelow child) = [])) ↔ (kind = .count ∧
      (allRecordsField ∈ namesBelow child' ∨ particular (namesBelow child') = [])) := by
    rw [h.below.mem_iff, ← List.perm_nil, ← List.perm_nil, List.Perm.congr_left hparticular]
  rw [valueOf_eq, valueOf_eq]
  by_cases hcount : kind = .count ∧ (allRecordsField ∈ namesBelow child ∨
      particular (namesBelow child) = [])
  · rw [if_pos hcount, if_pos (hcond.mp hcount)]
    exact Or.inl rfl
  · rw [if_neg hcount, if_neg fun h => hcount (hcond.mpr h)]
    exact Or.inr ⟨_, _, rfl, rfl, (OrderedMap.perm_eraseDups hparticular).map _⟩

theorem isEmptyMap_of_sameMap {value value' : Datum} (h : value.SameMap value') :
    value'.isEmptyMap = value.isEmptyMap := by
  rcases h with rfl | ⟨fields, fields', rfl, rfl, hperm⟩
  · rfl
  · cases fields with
    | nil => rw [List.nil_perm.mp hperm]
    | cons field rest =>
        cases fields' with
        | nil => exact absurd (List.perm_nil.mp hperm) (List.cons_ne_nil _ _)
        | cons => rfl

theorem related_entriesOf {fields fields' : List Field}
    (h : List.Forall₂ AskAlike fields fields') :
    OrderedMap.Related Datum.SameMap (entriesOf fields) (entriesOf fields') := by
  induction h with
  | nil => exact .nil
  | @cons child child' rest rest' hchild _ ih =>
      rw [entriesOf, entriesOf, List.filterMap_cons, List.filterMap_cons, entryOf, entryOf,
        hchild.name]
      cases AggregateKind.ofField? child.name with
      | none => exact ih
      | some kind =>
          have hsame := hchild.sameMap kind
          simp only [Option.bind_some, isEmptyMap_of_sameMap hsame]
          cases (valueOf kind child).isEmptyMap with
          | true => exact ih
          | false => exact .cons ⟨rfl, hsame⟩ ih

/-- Aggregates always come to something.  Under each stands what the last field that asks for it is
worth, of those that are worth anything, and there is nothing else.  All of it is as if the
fragments were not there and the nodes were one, and the order of the names below an aggregate
changes nothing but the order of its fields. -/
theorem ofNodes_last_worth (nodes : List Field) :
    ∃ projection entries, (ofNodes nodes).result = .ok projection ∧
      toDatum projection = .object entries ∧ (OrderedMap.keys entries).Nodup ∧
      (∀ name ∈ OrderedMap.keys entries, ∃ kind, name = AggregateKind.fieldName kind) ∧
      (∀ kind : AggregateKind, OrderedMap.get? entries kind.fieldName =
        (((asking kind nodes).map (valueOf kind)).filter fun value => !value.isEmptyMap).getLast?) ∧
      (∀ entry ∈ entries, entry.2 = .bool true ∨
        ∃ names, names ≠ [] ∧ entry.2 = allTrue names) ∧
      (ofNodes (nodes.map withoutFragments)).result = .ok projection ∧
      (ofSelections (some (nodes.flatMap fun node => node.selectionSet.getD []))).result =
        .ok projection ∧
      ∀ nodes', List.Forall₂ AskAlike (nodes.flatMap fieldsBelow) (nodes'.flatMap fieldsBelow) →
        ∃ projection' entries', (ofNodes nodes').result = .ok projection' ∧
          toDatum projection' = .object entries' ∧
          OrderedMap.Related Datum.SameMap entries entries' := by
  refine ⟨_, _, result_ofNodes nodes, toDatum_ofList _, OrderedMap.nodup_keys_ofList _, ?_, ?_, ?_,
    ?_, ?_, ?_⟩
  · intro name hname
    obtain ⟨entry, hentry, rfl⟩ := List.mem_map.mp hname
    obtain ⟨kind, -, hkind, -⟩ := exists_of_mem_entriesOf (OrderedMap.mem_of_mem_ofList hentry)
    exact ⟨kind, hkind⟩
  · intro kind
    rw [OrderedMap.get?_ofList, ← List.getLast?_map, entriesOf_named]
    rfl
  · intro entry hentry
    have hwritten := OrderedMap.mem_of_mem_ofList hentry
    obtain ⟨kind, field, -, hvalue, hsome⟩ := exists_of_mem_entriesOf hwritten
    rw [hvalue] at hsome ⊢
    exact true_or_fields kind field hsome
  · have hfields : (nodes.map withoutFragments).flatMap fieldsBelow =
        (nodes.flatMap fieldsBelow).map onlyFields := by
      rw [List.flatMap_map, List.map_flatMap]
      exact congrArg nodes.flatMap (funext fieldsBelow_withoutFragments)
    rw [result_ofNodes, hfields, List.filterMap_map]
    exact congrArg (fun entry? => Except.ok (OrderedMap.ofList (List.filterMap entry? _)))
      (funext written_onlyFields)
  · rw [result_ofSelections, Option.getD_some, Selection.fields, List.filterMap_flatMap]
    rfl
  · intro nodes' halike
    exact ⟨_, _, result_ofNodes nodes', toDatum_ofList _,
      (related_entriesOf halike).merge .nil⟩

/-- People are counted by what is asked for first, and then as a whole; ages are summed up, and
then nothing is. -/
def peopleTwice : List Field :=
  let asking (name : String) (below : List String) : Selection :=
    .field none name [] [] (some (below.map fun field => .field none field [] [] none))
  let node (selections : List Selection) : Field :=
    { aliasName := none, name := "aggregatePerson", arguments := [], directives := []
      selectionSet := some selections }
  [node [asking "_count" ["name", "__typename", "name"], asking "_sum" ["_all", "age"],
      .spread "Averages" []],
    node [asking "_sum" ["__typename"], asking "_avg" ["_all"], asking "_max" ["age", "id", "age"],
      asking "_count" ["name", "_all", "age"]]]

theorem last_worth_peopleTwice :
    ∃ projection entries, (ofNodes peopleTwice).result = .ok projection ∧
      toDatum projection = .object entries ∧
      OrderedMap.get? entries "_count" = some (.bool true) ∧
      OrderedMap.get? entries "_sum" = some (allTrue ["age"]) ∧
      OrderedMap.get? entries "_avg" = none ∧
      OrderedMap.get? entries "_max" = some (allTrue ["age", "id"]) := by
  obtain ⟨projection, entries, hresult, hentries, -, -, hworth, -⟩ := ofNodes_last_worth peopleTwice
  exact ⟨projection, entries, hresult, hentries, (hworth .count).trans rfl, (hworth .sum).trans rfl,
    (hworth .average).trans rfl, (hworth .maximum).trans rfl⟩

end Aggregate

end QueryProjection
