import QueryProjection.Proofs.Expansion.Results
import QueryProjection.Proofs.Registry.Faithful

/-!
# What a projection looks like

A projection is read by a data-access layer that trusts its shape.  Every level of it holds, under
names that may be projected, either `true` or an object of arguments, with the selection of the
next level in front if anything is selected there.  That selection comes from the query: it is
what the selections of the field compile to, and no argument of a client can take its place.

`WellFormed` says this of the value under one name and `Level` of all values of one level, each
relative to the part of the query that it comes from.  The walk writes such levels, however they
are assembled (`yields_writeAll`).  What is left out is decided by filters, and a registry hands
out filters that were made for other compilations; they leave out the same names, because that is
what they are remembered under (`Memory.Keyed`).
-/

namespace QueryProjection

namespace Expansion

/-! ### What computations yield -/

/-- If filters are looked up at all, they are keyed. -/
def Keyed (context : Context) (memory : Memory) : Prop :=
  ∀ target, context.options.target = some target → memory.Keyed

theorem lookups_keyedIn (context : Context) (source : Source) :
    (Law.ofInvariant (Keyed context)).Lookups source where
  hasType type memory h target htarget :=
    (lookups_keyed source).hasType type memory (h target htarget)
  modelFields type memory h target htarget :=
    (lookups_keyed source).modelFields type memory (h target htarget)
  fieldFilter type exclude memory h target htarget :=
    (lookups_keyed source).fieldFilter type exclude memory (h target htarget)

theorem compilations_keyed (context : Context) :
    (Law.ofInvariant (Keyed context)).correspondence.Compilations context context :=
  Law.along_compilations fun target _ => lookups_keyedIn context target.source

/-- From a memory with keyed filters a computation comes to another one, and if it ends with a
value, then with one of a sort. -/
def Yields (context : Context) {α : Type} (computation : Compile α) (values : α → Prop) : Prop :=
  ∀ memory, Keyed context memory → Keyed context (computation memory).memory ∧
    ∀ value, (computation memory).result = .ok value → values value

namespace Yields

variable {context : Context} {α β : Type} {values : α → Prop} {values' : β → Prop}

theorem done {value : α} (h : values value) : Yields context (pure value) values := by
  refine fun memory hkeyed => ⟨hkeyed, fun found hfound => ?_⟩
  cases hfound
  exact h

theorem step {first : Compile α} {second : α → Compile β} (h : Yields context first values)
    (hsteps : ∀ value, values value → Yields context (second value) values') :
    Yields context (first >>= second) values' := by
  intro memory hkeyed
  obtain ⟨hafter, hvalues⟩ := h memory hkeyed
  cases hr : (first memory).result with
  | error fault =>
      rw [Compile.bind_of_error hr]
      exact ⟨hafter, fun _ hvalue => nomatch hvalue⟩
  | ok value =>
      rw [Compile.bind_of_ok hr]
      exact hsteps value (hvalues value hr) _ hafter

/-- Whatever a computation yields, it is what the computation comes to from some memory. -/
theorem from_memory {computation : Compile α} (h : Yields context computation values) :
    Yields context computation fun value => values value ∧
      ∃ memory, Keyed context memory ∧ (computation memory).result = .ok value :=
  fun memory hkeyed => ⟨(h memory hkeyed).1, fun value hvalue =>
    ⟨(h memory hkeyed).2 value hvalue, memory, hkeyed, hvalue⟩⟩

theorem stop (fault : Fault) : Yields context (Compile.stop fault) values :=
  fun _ hkeyed => ⟨hkeyed, fun _ hvalue => nomatch hvalue⟩

theorem mono {values' : α → Prop} {computation : Compile α} (h : Yields context computation values)
    (himp : ∀ value, values value → values' value) : Yields context computation values' :=
  fun memory hkeyed => ⟨(h memory hkeyed).1, fun value hvalue =>
    himp value ((h memory hkeyed).2 value hvalue)⟩

theorem of_along {computation : Compile α} {same : α → α → Prop}
    (h : (Law.ofInvariant (Keyed context)).Along same computation computation)
    (hvalues : ∀ (memory : Memory) value, (computation memory).result = .ok value →
      values value) :
    Yields context computation values :=
  fun memory hkeyed => ⟨(h memory).1 hkeyed, hvalues memory⟩

end Yields

/-! ### Well-formed levels -/

/-- A field is selected at the level of some selections: it stands among them, or in a fragment
that stands there in turn. -/
inductive Selects (context : Context) : List Selection → Field → Prop where
  | here {aliasName : Option String} {name : String} {arguments : List Argument}
      {directives : List Directive} {selectionSet : Option (List Selection)}
      {rest : List Selection} :
      Selects context (.field aliasName name arguments directives selectionSet :: rest)
        { aliasName, name, arguments, directives, selectionSet }
  | inline {condition : Option String} {directives : List Directive}
      {selections rest : List Selection} {field : Field} (h : Selects context selections field) :
      Selects context (.inline condition directives selections :: rest) field
  | spread {name : String} {directives : List Directive} {fragment : Fragment}
      {rest : List Selection} {field : Field} (hdefined : context.definition? name = some fragment)
      (h : Selects context fragment.selections field) :
      Selects context (.spread name directives :: rest) field
  | later {selection : Selection} {rest : List Selection} {field : Field}
      (h : Selects context rest field) : Selects context (selection :: rest) field

namespace Selects

variable {context : Context} {field : Field}

theorem append_left {selections : List Selection} (h : Selects context selections field) :
    ∀ before : List Selection, Selects context (before ++ selections) field
  | [] => h
  | _ :: before => .later (h.append_left before)

theorem append_right {selections : List Selection} (h : Selects context selections field)
    (rest : List Selection) : Selects context (selections ++ rest) field := by
  induction h with
  | here => exact .here
  | inline h _ => exact .inline h
  | spread hdefined h _ => exact .spread hdefined h
  | later _ ih => exact .later ih

end Selects

/-- What the walk makes of some selections, at some place and moment of a compilation. -/
def Compiles (context : Context) (selections : List Selection) (map : ProjectionMap) : Prop :=
  ∃ depth active type memory, Keyed context memory ∧
    (selectionSet context (enterWithin context depth active) type selections memory).result =
      .ok map

/-- What is forwarded of the arguments of a field, each under one of the forwarded names. -/
structure Forwards (context : Context) (field : Field) (forwarded : OrderedMap String Datum) :
    Prop where
  result : (forwardArguments field.arguments context.bindings context.options.strict
    relationArguments).result = .ok forwarded
  names : ∀ name ∈ OrderedMap.keys forwarded, name ∈ relationArguments
  nodup : (OrderedMap.keys forwarded).Nodup

mutual

/-- A value that stands for a selected field. -/
inductive WellFormed (context : Context) : Field → Datum → Prop where
  /-- the field has no selection set -/
  | leaf {field : Field} (hset : field.selectionSet = none) : WellFormed context field (.bool true)
  /-- neither is anything selected below the field, nor forwarded -/
  | whole {field : Field} {selections : List Selection}
      (hset : field.selectionSet = some selections) (hcompiles : Compiles context selections [])
      (hforwards : Forwards context field []) : WellFormed context field (.bool true)
  /-- nothing is selected below the field -/
  | arguments {field : Field} {selections : List Selection}
      {forwarded : OrderedMap String Datum} (hset : field.selectionSet = some selections)
      (hcompiles : Compiles context selections []) (hforwards : Forwards context field forwarded)
      (hsome : forwarded ≠ []) : WellFormed context field (.object forwarded)
  /-- the selection comes first and is what the selections of the field compile to -/
  | selection {field : Field} {selections : List Selection} {map : ProjectionMap}
      {forwarded : OrderedMap String Datum} (hset : field.selectionSet = some selections)
      (hcompiles : Compiles context selections map) (hsome : map ≠ [])
      (hlevel : Level context selections (Node.mapToData map))
      (hforwards : Forwards context field forwarded) :
      WellFormed context field (.object (("select", .object (Node.mapToData map)) :: forwarded))

inductive Level (context : Context) : List Selection → List (String × Datum) → Prop where
  | nil {selections : List Selection} : Level context selections []
  | cons {selections : List Selection} {field : Field} {value : Datum}
      {rest : List (String × Datum)} (hselects : Selects context selections field)
      (hpseudo : field.name ∉ pseudoFields) (hexclude : field.name ∉ context.options.exclude)
      (hnew : field.name ∉ OrderedMap.keys rest) (hvalue : WellFormed context field value)
      (hrest : Level context selections rest) :
      Level context selections ((field.name, value) :: rest)

end

namespace Level

variable {context : Context} {selections more : List Selection}

theorem mono (hmore : ∀ field, Selects context selections field → Selects context more field) :
    ∀ {entries : List (String × Datum)}, Level context selections entries →
      Level context more entries
  | _, .nil => .nil
  | _, .cons hselects hpseudo hexclude hnew hvalue hrest =>
      .cons (hmore _ hselects) hpseudo hexclude hnew hvalue (hrest.mono hmore)

/-- No level names anything twice, or a pseudo-field. -/
theorem names :
    ∀ {entries : List (String × Datum)}, Level context selections entries →
      (OrderedMap.keys entries).Nodup ∧ ∀ name ∈ OrderedMap.keys entries, name ∉ pseudoFields
  | _, .nil => ⟨List.nodup_nil, nofun⟩
  | _, .cons _ hpseudo _ hnew _ hrest =>
      ⟨List.nodup_cons.mpr ⟨hnew, hrest.names.1⟩,
        List.forall_mem_cons.mpr ⟨hpseudo, hrest.names.2⟩⟩

theorem insert {field : Field} {value : Datum} (hselects : Selects context selections field)
    (hpseudo : field.name ∉ pseudoFields) (hexclude : field.name ∉ context.options.exclude)
    (hvalue : WellFormed context field value) {entries : List (String × Datum)}
    (h : Level context selections entries) :
    Level context selections (OrderedMap.insert entries field.name value) := by
  induction entries with
  | nil => exact .cons hselects hpseudo hexclude List.not_mem_nil hvalue .nil
  | cons entry rest ih =>
      cases h with
      | @cons _ first old _ hfirst hpseudo' hexclude' hnew hold hrest =>
          by_cases h : first.name = field.name
          · -- the later value takes the place of the earlier one
            rw [OrderedMap.insert, if_pos h, h]
            exact .cons hselects hpseudo hexclude (h ▸ hnew) hvalue hrest
          · rw [OrderedMap.insert, if_neg h]
            refine .cons hfirst hpseudo' hexclude' (fun hmem => ?_) hold (ih hrest)
            rcases (OrderedMap.mem_keys_insert _ _ _ _).mp hmem with heq | hrest'
            · exact h heq
            · exact hnew hrest'

theorem merge {base : List (String × Datum)} (hbase : Level context selections base) :
    ∀ {update : List (String × Datum)}, Level context selections update →
      Level context selections (OrderedMap.merge base update)
  | [], .nil => hbase
  | _ :: _, .cons hselects hpseudo hexclude _ hvalue hrest =>
      merge (hbase.insert hselects hpseudo hexclude hvalue) hrest

end Level

theorem mapToData_insert (map : ProjectionMap) (name : String) (node : Node) :
    Node.mapToData (OrderedMap.insert map name node) =
      OrderedMap.insert (Node.mapToData map) name node.toDatum := by
  induction map with
  | nil => rfl
  | cons entry rest ih =>
      obtain ⟨key, value⟩ := entry
      by_cases h : key = name
      · simp [OrderedMap.insert, Node.mapToData, h]
      · simp [OrderedMap.insert, Node.mapToData, h, ih]

theorem mapToData_merge (base update : ProjectionMap) :
    Node.mapToData (OrderedMap.merge base update) =
      OrderedMap.merge (Node.mapToData base) (Node.mapToData update) := by
  induction update generalizing base with
  | nil => rfl
  | cons entry rest ih =>
      obtain ⟨name, node⟩ := entry
      rw [OrderedMap.merge_cons, ih, mapToData_insert]
      rfl

theorem mapToData_eq_mapValues (map : ProjectionMap) :
    Node.mapToData map = OrderedMap.mapValues Node.toDatum map := by
  induction map with
  | nil => rfl
  | cons entry rest ih =>
      obtain ⟨name, node⟩ := entry
      simp only [Node.mapToData, ih]
      rfl

theorem mapToData_eq_nil {map : ProjectionMap} : Node.mapToData map = [] ↔ map = [] := by
  cases map with
  | nil => simp [Node.mapToData]
  | cons entry rest => simp [Node.mapToData]

/-- The value of a field with a selection set is well formed. -/
theorem wellFormed_ofParts {context : Context} {field : Field} {selections : List Selection}
    {map : ProjectionMap} {forwarded : OrderedMap String Datum}
    (hset : field.selectionSet = some selections) (hcompiles : Compiles context selections map)
    (hlevel : Level context selections (Node.mapToData map))
    (hforwards : Forwards context field forwarded) :
    WellFormed context field (Node.ofParts map forwarded).toDatum := by
  unfold Node.ofParts
  cases map with
  | nil =>
      cases forwarded with
      | nil =>
          simp only [List.isEmpty_nil, Bool.and_self, if_true, Node.toDatum]
          exact .whole hset hcompiles hforwards
      | cons argument rest =>
          simp only [List.isEmpty_nil, List.isEmpty_cons, Bool.and_false, Bool.false_eq_true,
            if_false, Node.toDatum, Node.mapToData, if_true]
          exact .arguments hset hcompiles hforwards (List.cons_ne_nil _ _)
  | cons entry rest =>
      have hsome : (Node.mapToData (entry :: rest)).isEmpty = false := rfl
      simp only [List.isEmpty_cons, Bool.false_and, Bool.false_eq_true, if_false, Node.toDatum,
        hsome]
      exact .selection hset hcompiles (List.cons_ne_nil _ _) hlevel hforwards

/-! ### The walk writes well-formed levels -/

section Walks

variable {context : Context}

/-- The filter leaves out whatever the context does. -/
def Covers (context : Context) (filter : FieldFilter) : Prop :=
  ∀ name ∈ context.options.exclude, name ∈ filter.exclude

theorem yields_fieldFilter {target : Target} (htarget : context.options.target = some target)
    (type : TypeName) (exclude : List String) :
    Yields context (Compile.ofLookup (Registry.fieldFilter target.source type exclude))
      fun issued => ∀ name ∈ exclude, name ∈ issued.filter.exclude := by
  refine fun memory hkeyed =>
    ⟨(lookups_keyedIn context target.source).fieldFilter type exclude memory hkeyed,
      fun issued hissued => ?_⟩
  rw [Compile.ofLookup_apply, Registry.fieldFilter_run] at hissued
  cases hfound : memory.filter? { type := type.key, exclude } with
  | some found =>
      rw [hfound] at hissued
      cases hissued
      obtain ⟨known, hentry, -, hnames⟩ := Memory.exists_of_filter? hfound
      intro name hname
      rw [hkeyed target htarget (known, issued) hentry]
      exact (hnames name).mpr hname
  | none =>
      rw [hfound] at hissued
      cases hfields : memory.fieldsOf target.source type with
      | error fault =>
          rw [hfields] at hissued
          cases hissued
      | ok fields =>
          rw [hfields] at hissued
          cases hissued
          exact fun name hname => hname

theorem yields_filterAt (type : Option TypeName) :
    Yields context (context.filterAt type) (Covers context) := by
  unfold Context.filterAt
  split
  · rename_i target name htarget
    exact (yields_fieldFilter htarget name _).step fun issued hissued => .done hissued
  · exact .done fun _ hname => hname

theorem not_skipped {filter : FieldFilter} (hcovers : Covers context filter) {name : String}
    {kind : FieldKind} (h : filter.classify name = some kind) :
    name ∉ pseudoFields ∧ name ∉ context.options.exclude := by
  have hskips : filter.skips name = false := by
    unfold FieldFilter.classify at h
    cases hskips : filter.skips name with
    | true =>
        simp only [hskips, if_true] at h
        cases h
    | false => rfl
  simp only [FieldFilter.skips, Bool.or_eq_false_iff, List.contains_eq_mem,
    decide_eq_false_iff_not] at hskips
  exact ⟨hskips.1, fun hmem => hskips.2 (hcovers name hmem)⟩

theorem yields_typeBelow (type : Option TypeName) (name : String) (kind : FieldKind) :
    Yields context (context.typeBelow type name kind) fun _ => True :=
  .of_along ((compilations_keyed context).typeBelow name kind rfl) fun _ _ _ => trivial

theorem yields_typeWithin (type : Option TypeName) (condition : Option String) :
    Yields context (context.typeWithin type condition) fun _ => True :=
  .of_along ((compilations_keyed context).typeWithin condition rfl) fun _ _ _ => trivial

theorem yields_fragment? (name : String) :
    Yields context (context.fragment? name) fun found => ∀ fragment, found = some fragment →
      context.definition? name = some fragment := by
  refine .of_along ((compilations_keyed context).fragment? name)
    fun memory found hfound fragment hfragment => ?_
  cases hdefined : context.definition? name with
  | none =>
      rw [Context.result_fragment?_of_undefined hdefined] at hfound
      split at hfound
      · cases hfound
      · cases hfound
        cases hfragment
  | some defined =>
      rw [Context.result_fragment?_of_defined hdefined] at hfound
      cases hfound
      exact hfragment

theorem yields_forwarded (field : Field) :
    Yields context (context.forwarded field.arguments) (Forwards context field) := by
  refine .of_along ((compilations_keyed context).forwarded field.arguments)
    fun memory forwarded h => ?_
  obtain ⟨hnames, hnodup⟩ := keys_forwardArguments h
  exact ⟨h, hnames, hnodup⟩

/-- Fragments are entered in the way of a walk, and written level by level. -/
structure Enters (context : Context) (enter : Enter) : Prop where
  within : ∃ depth active, enter = enterWithin context depth active
  yields : ∀ name fragment type, Yields context (enter name fragment type) fun map =>
    Level context fragment.selections (Node.mapToData map)

variable {enter : Enter} (henter : Enters context enter)

include henter

/-- A selection set compiles to a level, given that its selections are written level by level. -/
theorem yields_selectionSet {type : Option TypeName} {selections : List Selection}
    (hwrites : ∀ filter, Covers context filter →
      Yields context (writeAll context enter type filter [] selections) fun map =>
        Level context selections (Node.mapToData map)) :
    Yields context (selectionSet context enter type selections) fun map =>
      Level context selections (Node.mapToData map) ∧ Compiles context selections map := by
  have hlevel : Yields context (selectionSet context enter type selections) fun map =>
      Level context selections (Node.mapToData map) :=
    (yields_filterAt type).step hwrites
  obtain ⟨depth, active, rfl⟩ := henter.within
  exact hlevel.from_memory.mono fun map ⟨hmap, memory, hkeyed, hresult⟩ =>
    ⟨hmap, depth, active, type, memory, hkeyed, hresult⟩

/-- What is written of a selection belongs to every level at which it selects. -/
theorem yields_writeOne (selection : Selection)
    (hnested : ∀ type filter, Covers context filter →
      Yields context (writeAll context enter type filter [] selection.nested) fun map =>
        Level context selection.nested (Node.mapToData map))
    (type : Option TypeName) {filter : FieldFilter} (hcovers : Covers context filter)
    {whole : List Selection}
    (hwhole : ∀ field, Selects context [selection] field → Selects context whole field)
    {before : ProjectionMap} (hbefore : Level context whole (Node.mapToData before)) :
    Yields context (writeOne context enter type filter before selection) fun map =>
      Level context whole (Node.mapToData map) := by
  cases selection with
  | field aliasName name arguments directives selections =>
      cases hkind : filter.classify name with
      | none =>
          rw [writeOne_dropped before hkind]
          have hnote : Yields context (Compile.note (.fieldDropped name type)) fun _ => True :=
            .of_along ((compilations_keyed context).dropped name rfl) fun _ _ _ => trivial
          exact hnote.step fun _ _ => .done hbefore
      | some kind =>
          obtain ⟨hpseudo, hexclude⟩ := not_skipped hcovers hkind
          have hselects := hwhole _ .here
          cases selections with
          | none =>
              rw [writeOne_leaf before hkind]
              refine .done ?_
              rw [mapToData_insert]
              exact hbefore.insert hselects hpseudo hexclude (.leaf rfl)
          | some selections =>
              rw [writeOne_branch before hkind]
              refine (yields_typeBelow type name kind).step fun below _ => ?_
              refine (yields_selectionSet henter fun inner hinner =>
                hnested below inner hinner).step fun select ⟨hlevel, hcompiles⟩ => ?_
              refine (yields_forwarded
                ⟨aliasName, name, arguments, directives, some selections⟩).step
                fun forwarded hforwards => .done ?_
              rw [mapToData_insert]
              exact hbefore.insert hselects hpseudo hexclude
                (wellFormed_ofParts rfl hcompiles hlevel hforwards)
  | spread name directives =>
      rw [writeOne_spread]
      refine (yields_fragment? name).step fun found hfound => ?_
      cases found with
      | none => exact .done hbefore
      | some fragment =>
          refine (yields_typeWithin type _).step fun within _ => ?_
          refine (henter.yields name fragment within).step fun inner hinner => .done ?_
          rw [mapToData_merge]
          exact hbefore.merge (hinner.mono fun _ h => hwhole _ (.spread (hfound fragment rfl) h))
  | inline condition directives selections =>
      rw [writeOne_inline]
      refine (yields_typeWithin type condition).step fun within _ => ?_
      refine (yields_selectionSet henter fun inner hinner =>
        hnested within inner hinner).step fun inner ⟨hlevel, _⟩ => .done ?_
      rw [mapToData_merge]
      exact hbefore.merge (hlevel.mono fun _ h => hwhole _ (.inline h))
  | other name =>
      rw [writeOne_other]
      exact .stop _

theorem yields_writeAll (selections : List Selection) :
    ∀ type filter, Covers context filter →
      Yields context (writeAll context enter type filter [] selections) fun map =>
        Level context selections (Node.mapToData map) := by
  -- a tail is written over the writes before it, to the level of the whole list
  suffices h : ∀ type filter, Covers context filter → ∀ whole before,
      (∀ field, Selects context selections field → Selects context whole field) →
      Level context whole (Node.mapToData before) →
      Yields context (writeAll context enter type filter before selections) fun map =>
        Level context whole (Node.mapToData map) from
    fun type filter hcovers => h type filter hcovers selections [] (fun _ hselects => hselects) .nil
  induction selections using Selection.listInduction with
  | nil =>
      intro type filter hcovers whole before _ hbefore
      rw [writeAll_nil]
      exact .done hbefore
  | cons selection rest ihNested ih =>
      intro type filter hcovers whole before hwhole hbefore
      rw [writeAll_cons]
      have hnested : ∀ type filter, Covers context filter →
          Yields context (writeAll context enter type filter [] selection.nested) fun map =>
            Level context selection.nested (Node.mapToData map) :=
        fun type filter hcovers => ihNested type filter hcovers _ [] (fun _ h => h) .nil
      have hfirst : ∀ field, Selects context [selection] field → Selects context whole field :=
        fun field h => hwhole field (h.append_right rest)
      refine (yields_writeOne henter selection hnested type hcovers hfirst hbefore).step
        fun written hwritten => ?_
      exact ih type filter hcovers whole written (fun field h => hwhole field (.later h)) hwritten

omit henter in
theorem enters_enterWithin (depth : Nat) (active : List (String × Option Key)) :
    Enters context (enterWithin context depth active) := by
  induction depth generalizing active with
  | zero =>
      exact ⟨⟨0, active, rfl⟩, fun _ _ _ => .stop _⟩
  | succ depth ih =>
      refine ⟨⟨depth + 1, active, rfl⟩, fun name fragment type => ?_⟩
      rw [enterWithin_succ]
      split
      · exact .stop _
      · exact (yields_selectionSet (ih _) (yields_writeAll (ih _) _ type)).mono fun _ h => h.1

end Walks

/-! ### Projections -/

section Compilations

variable {context : Context}

theorem yields_compileSelections (selections : Option (List Selection)) :
    Yields context (compileSelections context selections) fun map =>
      Level context (selections.getD []) (Node.mapToData map) := by
  refine .step (.of_along (compilations_keyed context).checkRoot fun _ _ _ => trivial) fun _ _ => ?_
  have hremembered : Yields context Compile.remembered fun _ => True :=
    .of_along (compilations_keyed context).remembered fun _ _ _ => trivial
  refine hremembered.step fun memory _ => ?_
  have henter : Enters context (enterWithin context (budget context memory) []) :=
    enters_enterWithin _ _
  exact (yields_selectionSet henter (yields_writeAll henter _ context.root)).mono fun _ h => h.1

def selectionsOf (nodes : List Field) : List Selection :=
  nodes.flatMap fun node => node.selectionSet.getD []

theorem yields_compileOver (nodes : List Field) :
    ∀ {whole : List Selection} {before : ProjectionMap},
      (∀ field, Selects context (selectionsOf nodes) field → Selects context whole field) →
      Level context whole (Node.mapToData before) →
      Yields context (compileOver context before nodes) fun map =>
        Level context whole (Node.mapToData map) := by
  induction nodes with
  | nil => exact fun _ hbefore => .done hbefore
  | cons node rest ih =>
      intro whole before hwhole hbefore
      refine (yields_compileSelections node.selectionSet).step fun written hwritten => ?_
      refine ih (fun field h => hwhole field (h.append_left _)) ?_
      rw [mapToData_merge]
      exact hbefore.merge (hwritten.mono fun field h => hwhole field (h.append_right _))

theorem yields_compileFields (nodes : List Field) :
    Yields context (compileFields context nodes) fun projection => ∃ map,
      Level context (selectionsOf nodes) (Node.mapToData map) ∧
        projection = ProjectionParts.ofSelect map :=
  (yields_compileOver nodes (fun _ h => h) .nil).step fun map hmap => .done ⟨map, hmap, rfl⟩

theorem keyed_of_startsFrom {memory : Memory}
    (hstarts : context.StartsFrom Session.anyStep memory) :
    Keyed context memory := by
  intro target htarget
  obtain ⟨session, id, registry, harises, hregistry, -, rfl⟩ := hstarts target htarget
  exact harises.keyed hregistry

/-- What a projection selects, as plain data; nothing in particular, if it has no selection. -/
def selectOf (projection : Projection) : OrderedMap String Datum :=
  Node.mapToData (projection.select.getD [])

theorem level_of_compileFields {memory : Memory}
    (hstarts : context.StartsFrom Session.anyStep memory) {nodes : List Field}
    {projection : Projection} (h : (compileFields context nodes memory).result = .ok projection) :
    Level context (selectionsOf nodes) (selectOf projection) := by
  obtain ⟨map, hlevel, rfl⟩ :=
    (yields_compileFields nodes memory (keyed_of_startsFrom hstarts)).2 projection h
  cases map with
  | nil => exact hlevel
  | cons entry rest => exact hlevel

/-- A projection is empty or has a selection that is not, and all its levels are well formed. -/
theorem compileFields_wellFormed {nodes : List Field} {memory : Memory}
    (hstarts : context.StartsFrom Session.anyStep memory) {projection : Projection}
    (h : (compileFields context nodes memory).result = .ok projection) :
    projection.toDatum Node.toDatum = .object [] ∨
      ∃ select, select ≠ [] ∧ Level context (selectionsOf nodes) select ∧
        projection.toDatum Node.toDatum = .object [("select", .object select)] := by
  have hkeyed : Keyed context memory := by
    intro target htarget
    obtain ⟨session, id, registry, harises, hregistry, -, rfl⟩ := hstarts target htarget
    exact harises.keyed hregistry
  obtain ⟨map, hlevel, rfl⟩ := (yields_compileFields nodes memory hkeyed).2 projection h
  cases map with
  | nil => exact Or.inl rfl
  | cons entry rest =>
      refine Or.inr ⟨Node.mapToData (entry :: rest), ?_, hlevel, ?_⟩
      · exact fun hnil => List.cons_ne_nil _ _ (mapToData_eq_nil.mp hnil)
      · rw [mapToData_eq_mapValues]
        rfl

def filtered : Session :=
  ((Session.start.perform (.openRegistry "people" people none)).2.perform
    (.request "people" (.fieldFilter (.text "Person") ["posts", "id"]))).2

def afterFiltering : Memory :=
  ((Registry.fieldFilter people (.text "Person") ["posts", "id"]).run Memory.empty).2

def withoutPosts : Context :=
  { aboutPeople [] with
    options := { (aboutPeople []).options with exclude := ["id", "posts"] } }

/-- Three friends of a person, with an argument that is not forwarded. -/
def threeFriends : List Field :=
  [{ aliasName := none, name := "person", arguments := [], directives := []
     selectionSet := some
      [plainField "posts" (some [plainField "title" none]),
        .field none "friend" [("take", .int "3"), ("select", .object [])] []
          (some [plainField "name" none, plainField "id" none])] }]

theorem result_threeFriends :
    (compileFields withoutPosts threeFriends afterFiltering).result =
      .ok { select := some [("friend", .relation [("name", .leaf)] [("take", .int 3)])]
            included := none } := by
  rfl

/-- The filter that was made for the same names in another order is used again. -/
theorem wellFormed_threeFriends :
    withoutPosts.StartsFrom Session.anyStep afterFiltering ∧
      ∃ select, select ≠ [] ∧ Level withoutPosts (selectionsOf threeFriends) select ∧
        select = [("friend",
          .object [("select", .object [("name", .bool true)]), ("take", .int 3)])] := by
  have hstarts : withoutPosts.StartsFrom Session.anyStep afterFiltering := by
    intro target htarget
    cases htarget
    exact ⟨filtered, "people", _, .step (.step .start _ trivial) _ trivial, rfl, rfl, rfl⟩
  rcases compileFields_wellFormed hstarts result_threeFriends with
    hempty | ⟨select, hsome, hlevel, hselect⟩
  · cases hempty
  · refine ⟨hstarts, select, hsome, hlevel, ?_⟩
    cases hselect
    rfl

end Compilations

end Expansion

end QueryProjection
