import QueryProjection.Proofs.Expansion.Occurrences
import QueryProjection.Proofs.Registry.History

/-!
# Nothing unknown is projected

Where a registry is given, the names in a projection are names of fields that the models
have, all the way down.  Each key of a projection is a field of some type: at the top of the
root model, below a relation of the type that the relation leads to, and in both cases perhaps
of a type that is named by a type condition instead, if the registry knows it.  Only below a
stored field is there no model to compare with.

The filter of a place and the type of the place below it come from two different look-ups.
They agree because what a registry remembers is consistent (`Reached.consistent`).
-/

namespace QueryProjection

def Node.selected : Node → ProjectionMap
  | .leaf => []
  | .relation select _ => select

theorem Node.selected_ofParts (select : ProjectionMap) (arguments : OrderedMap String Datum) :
    (Node.ofParts select arguments).selected = select := by
  unfold Node.ofParts
  split
  · rename_i hempty
    rw [Bool.and_eq_true, List.isEmpty_iff] at hempty
    rw [hempty.1]
    rfl
  · rfl

/-- The keys on a way down through what is selected. -/
inductive Path : ProjectionMap → List String → Prop where
  | nil {map : ProjectionMap} : Path map []
  | cons {map : ProjectionMap} {name : String} {node : Node} {rest : List String}
      (hnode : OrderedMap.get? map name = some node) (hrest : Path node.selected rest) :
      Path map (name :: rest)

/-- A way down from a type: every key is a field of the type of its place.  A relation leads to
its type or to one that a type condition names, and a stored field to no type. -/
inductive Typed (fieldsOf : TypeName → Except Fault ModelFields) (named : TypeName → Prop) :
    TypeName → List String → Prop where
  | nil {type : TypeName} : Typed fieldsOf named type []
  | relation {type related next : TypeName} {fields : ModelFields} {name : String}
      {rest : List String} (hfields : fieldsOf type = .ok fields)
      (hrelated : fields.related? name = some (.type related))
      (hnext : next = related ∨ named next) (hrest : Typed fieldsOf named next rest) :
      Typed fieldsOf named type (name :: rest)
  | scalar {type : TypeName} {fields : ModelFields} {name : String} {rest : List String}
      (hfields : fieldsOf type = .ok fields) (hscalar : name ∈ fields.scalars)
      (hnot : fields.related? name = none) : Typed fieldsOf named type (name :: rest)

namespace Expansion

def Conditioned (selections : List Selection) (condition : String) : Prop :=
  Selection.Somewhere (fun selection => ∃ directives inside,
    selection = .inline (some condition) directives inside) selections

def Condition (context : Context) (nodes : List Field) (condition : String) : Prop :=
  (∃ node ∈ nodes, Conditioned (node.selectionSet.getD []) condition) ∨
    ∃ name fragment, context.definition? name = some fragment ∧
      (fragment.condition = condition ∨ Conditioned fragment.selections condition)

def NamedType (context : Context) (source : Source) (memory : Memory) (nodes : List Field)
    (type : TypeName) : Prop :=
  ∃ condition, type = .text condition ∧ Condition context nodes condition ∧
    ((Registry.hasType source type).run memory).1 = .ok true

section Types

variable {context : Context} {target : Target} {memory : Memory} {nodes : List Field}
  (htarget : context.options.target = some target)

include htarget

theorem exists_typeWithin {type : TypeName} {condition : Option String}
    {within : Option TypeName}
    (h : (context.outlook memory).typeWithin (some type) condition = .ok within)
    (hcondition : ∀ inner, condition = some inner → Condition context nodes inner) :
    ∃ next, within = some next ∧
      (next = type ∨ NamedType context target.source memory nodes next) := by
  unfold Outlook.typeWithin at h
  cases condition with
  | none =>
      cases h
      exact ⟨type, rfl, Or.inl rfl⟩
  | some inner =>
      simp only at h
      cases hknows : (context.outlook memory).knows inner with
      | error fault =>
          rw [hknows] at h
          cases h
      | ok known =>
          rw [hknows] at h
          cases known with
          | false =>
              cases h
              exact ⟨type, rfl, Or.inl rfl⟩
          | true =>
              cases h
              refine ⟨.text inner, rfl, Or.inr ⟨inner, rfl, hcondition inner rfl, ?_⟩⟩
              simp only [Context.outlook, htarget] at hknows
              rw [Registry.hasType_run, hknows]

/-- The places of the occurrences have the type of the place where the selections stand, or one
that a type condition names. -/
theorem types_of_expands {place : Option TypeName} {selections : List Selection}
    {occurrences : List Occurrence}
    (h : Expands context (context.outlook memory) place selections occurrences) :
    ∀ type, place = some type →
      (∀ condition, Conditioned selections condition → Condition context nodes condition) →
      ∀ occurrence ∈ occurrences,
        (∃ next, occurrence.type = some next ∧
          (next = type ∨ NamedType context target.source memory nodes next)) ∧
        ∀ condition, Conditioned (occurrence.selectionSet.getD []) condition →
          Condition context nodes condition := by
  induction h with
  | nil =>
      intro type _ _ occurrence hmem
      cases hmem
  | @field place aliasName name arguments directives selections rest after _ ih =>
      intro type hplace hconditions occurrence hmem
      rcases List.mem_cons.mp hmem with rfl | hrest
      · refine ⟨⟨type, hplace, Or.inl rfl⟩, fun condition hcondition => ?_⟩
        cases selections with
        | none => cases hcondition
        | some inside => exact hconditions condition (.nested hcondition)
      · exact ih type hplace (fun condition h => hconditions condition (.later h)) occurrence hrest
  | @inline place within condition directives selections rest inside after hwithin _ _ ihInside
      ih =>
      intro type hplace hconditions occurrence hmem
      subst hplace
      rcases List.mem_append.mp hmem with hinside | hrest
      · obtain ⟨next, rfl, hnext⟩ := exists_typeWithin htarget hwithin fun inner hinner =>
          hconditions inner (.here ⟨directives, selections, hinner ▸ rfl⟩)
        obtain ⟨⟨found, hfound, hcase⟩, hnested⟩ := ihInside next rfl
          (fun condition h => hconditions condition (.nested h)) occurrence hinside
        refine ⟨⟨found, hfound, ?_⟩, hnested⟩
        rcases hcase with rfl | hnamed
        · exact hnext
        · exact Or.inr hnamed
      · exact ih type rfl (fun condition h => hconditions condition (.later h)) occurrence hrest
  | @spread place within name fragment directives rest inside after hdefined hwithin _ _ ihInside
      ih =>
      intro type hplace hconditions occurrence hmem
      subst hplace
      rcases List.mem_append.mp hmem with hinside | hrest
      · obtain ⟨next, rfl, hnext⟩ := exists_typeWithin htarget hwithin fun inner hinner =>
          Or.inr ⟨name, fragment, hdefined, Or.inl (Option.some.inj hinner)⟩
        obtain ⟨⟨found, hfound, hcase⟩, hnested⟩ := ihInside next rfl
          (fun condition h => Or.inr ⟨name, fragment, hdefined, Or.inr h⟩) occurrence hinside
        refine ⟨⟨found, hfound, ?_⟩, hnested⟩
        rcases hcase with rfl | hnamed
        · exact hnext
        · exact Or.inr hnamed
      · exact ih type rfl (fun condition h => hconditions condition (.later h)) occurrence hrest
  | undefined _ _ ih =>
      intro type hplace hconditions occurrence hmem
      exact ih type hplace (fun condition h => hconditions condition (.later h)) occurrence hmem

/-! ### What a filter lets through -/

omit htarget in
theorem related_of_fieldsOf {source : Source} (hrelated : source.Related)
    (hconsistent : memory.Consistent) {type : TypeName} {fields : ModelFields}
    (h : memory.fieldsOf source type = .ok fields) : fields.Related := by
  rw [Memory.fieldsOf_eq_ok, Memory.described] at h
  split at h
  · rename_i cached hcached
    cases h
    obtain ⟨⟨first, found⟩, hfound, rfl⟩ := Option.map_eq_some_iff.mp hcached
    exact hconsistent.related type.key first found hfound
  · exact hrelated _ _ _ h

/-- A filter has the fields that the registry gives for its type, also if it was made long ago. -/
theorem fieldsOf_of_filterAt (hconsistent : memory.Consistent) {type : TypeName}
    {filter : FieldFilter} (h : (context.outlook memory).filterAt (some type) = .ok filter) :
    ∃ fields, memory.fieldsOf target.source type = .ok fields ∧ filter.fields = some fields := by
  simp only [Context.outlook, htarget, Memory.filterOf] at h
  split at h
  · rename_i issued hissued
    cases h
    obtain ⟨known, hentry, htype, -⟩ := Memory.exists_of_filter? hissued
    obtain ⟨first, fields, hfields, hfilter⟩ := hconsistent.filters (known, issued) hentry
    refine ⟨fields, ?_, hfilter⟩
    rw [htype] at hfields
    rw [Memory.fieldsOf_eq_ok, Memory.described, FieldCache.fields?, hfields]
    rfl
  · split at h
    · rename_i fields hfields
      cases h
      exact ⟨fields, hfields, rfl⟩
    · cases h

/-- What is kept is a field of its type, and if it is a relation, the place below has the type
that the relation leads to. -/
theorem field_of_kind (hrelated : target.source.Related) (hconsistent : memory.Consistent)
    {occurrence : Occurrence} {type : TypeName} (htype : occurrence.type = some type)
    {kind : FieldKind} (hkind : occurrence.kind (context.outlook memory) = some kind) :
    ∃ fields, memory.fieldsOf target.source type = .ok fields ∧
      ((∃ related, fields.related? occurrence.name = some (.type related) ∧
          (context.outlook memory).typeBelow occurrence.type occurrence.name kind =
            .ok (some related)) ∨
        fields.related? occurrence.name = none ∧ occurrence.name ∈ fields.scalars) := by
  unfold Occurrence.kind at hkind
  cases hfilter : (context.outlook memory).filterAt occurrence.type with
  | error fault =>
      rw [hfilter] at hkind
      cases hkind
  | ok filter =>
      simp only [hfilter] at hkind
      rw [htype] at hfilter ⊢
      obtain ⟨fields, hfields, hsame⟩ := fieldsOf_of_filterAt htarget hconsistent hfilter
      refine ⟨fields, hfields, ?_⟩
      simp only [FieldFilter.classify, hsame] at hkind
      cases hfound : fields.related? occurrence.name with
      | none =>
          refine Or.inr ⟨rfl, ?_⟩
          simp only [ModelFields.knows, hfound, Option.isSome_none, Bool.or_false] at hkind
          split at hkind
          · cases hkind
          · split at hkind
            · cases hkind
            · rename_i hknown
              simpa using hknown
      | some found =>
          obtain ⟨related, rfl⟩ :=
            related_of_fieldsOf hrelated hconsistent hfields occurrence.name found hfound
          refine Or.inl ⟨related, rfl, ?_⟩
          simp only [ModelFields.knows, hfound, Option.isSome_some, Bool.or_true, Bool.not_true,
            Bool.false_eq_true, if_false, if_true] at hkind
          split at hkind
          · cases hkind
          · cases hkind
            simp only [Context.outlook, htarget, Memory.below, hfields, hfound]

/-- What stands below an occurrence is typed from there on. -/
theorem typed_of_loads (hrelated : target.source.Related) (hconsistent : memory.Consistent)
    {occurrence : Occurrence} {node : Node}
    (h : Loads context (context.outlook memory) occurrence node) :
    ∀ type, occurrence.type = some type →
      (occurrence.kind (context.outlook memory)).isSome →
      (∀ condition, Conditioned (occurrence.selectionSet.getD []) condition →
        Condition context nodes condition) →
      ∀ rest, Path node.selected rest →
        Typed (memory.fieldsOf target.source) (NamedType context target.source memory nodes) type
          (occurrence.name :: rest) := by
  induction h with
  | @leaf occurrence hselection =>
      intro type htype hkept _ rest hpath
      obtain ⟨kind, hkind⟩ := Option.isSome_iff_exists.mp hkept
      obtain ⟨fields, hfields, ⟨related, hfound, -⟩ | ⟨hnot, hscalar⟩⟩ :=
        field_of_kind htarget hrelated hconsistent htype hkind
      · cases hpath with
        | nil => exact .relation hfields hfound (Or.inl rfl) .nil
        | cons hnode _ => cases hnode
      · exact .scalar hfields hscalar hnot
  | @branch occurrence selections kind below inside select forwarded hselection hkind hbelow
      hexpands hkeys _ _ ih =>
      intro type htype _ hconditions rest hpath
      obtain ⟨fields, hfields, ⟨related, hfound, hrelatedBelow⟩ | ⟨hnot, hscalar⟩⟩ :=
        field_of_kind htarget hrelated hconsistent htype hkind
      · rw [hbelow] at hrelatedBelow
        cases hrelatedBelow
        rw [Node.selected_ofParts] at hpath
        cases hpath with
        | nil => exact .relation hfields hfound (Or.inl rfl) .nil
        | @cons _ name node rest hnode hrest =>
            -- the next key was written by its last occurrence, at a place of some type
            have hname : name ∈ OrderedMap.keys select :=
              List.mem_map_of_mem (OrderedMap.mem_of_get? hnode)
            rw [hkeys, List.mem_eraseDups] at hname
            obtain ⟨last, hlast⟩ := exists_lastNamed hname
            obtain ⟨hmem, hlastName⟩ := mem_of_lastNamed hlast
            have hkept := List.mem_filter.mp hmem
            rw [hselection] at hconditions
            obtain ⟨⟨next, hnext, hcase⟩, hnested⟩ :=
              types_of_expands htarget hexpands related rfl hconditions last hkept.1
            have hrestTyped := ih name last node hlast hnode next hnext hkept.2 hnested rest hrest
            rw [hlastName] at hrestTyped
            exact .relation hfields hfound hcase hrestTyped
      · exact .scalar hfields hscalar hnot

end Types

/-! ### Several nodes -/

theorem exists_entry_of_compileOver {context : Context} (hsteady : context.Steady)
    {name : String} {node : Node} (nodes : List Field) :
    ∀ {before map : ProjectionMap} {memory : Memory},
      (compileOver context before nodes memory).result = .ok map →
      OrderedMap.get? map name = some node →
      OrderedMap.get? before name = some node ∨
        ∃ field ∈ nodes, ∃ entries,
          Made context (context.outlook memory) context.root (field.selectionSet.getD []) entries ∧
            OrderedMap.get? (OrderedMap.ofList entries) name = some node := by
  induction nodes with
  | nil =>
      intro before map memory h hnode
      cases h
      exact Or.inl hnode
  | cons field rest ih =>
      intro before map memory h hnode
      rw [compileOver] at h
      cases hwritten : (compileSelections context field.selectionSet memory).result with
      | error fault =>
          rw [Compile.bind_of_error hwritten] at h
          cases h
      | ok written =>
          rw [Compile.bind_of_ok hwritten] at h
          have hkeeps : context.outlook
              (compileSelections context field.selectionSet memory).memory =
                context.outlook memory :=
            outlook_compileEntering hsteady (fun _ => settled_enterWithin hsteady _ []) _
          rcases ih h hnode with hbefore | ⟨other, hother, entries, hmade, hentry⟩
          · obtain ⟨entries, hmade, rfl⟩ := compileSelections_made hsteady hwritten
            rw [OrderedMap.get?_merge, OrderedMap.ofList_ofList, Option.or_eq_some_iff] at hbefore
            rcases hbefore with hentry | ⟨-, hbefore⟩
            · exact Or.inr ⟨field, List.mem_cons_self .., entries, hmade, hentry⟩
            · exact Or.inl hbefore
          · rw [hkeeps] at hmade
            exact Or.inr ⟨other, List.mem_cons_of_mem _ hother, entries, hmade, hentry⟩

theorem exists_map_of_compileFields {context : Context} {nodes : List Field} {memory : Memory}
    {projection : Projection} (h : (compileFields context nodes memory).result = .ok projection) :
    ∃ map, (compileOver context [] nodes memory).result = .ok map ∧
      projection.select.getD [] = map := by
  rw [compileFields] at h
  cases hmap : (compileOver context [] nodes memory).result with
  | error fault =>
      rw [Compile.bind_of_error hmap] at h
      cases h
  | ok map =>
      rw [Compile.bind_of_ok hmap] at h
      cases h
      refine ⟨map, rfl, ?_⟩
      cases map with
      | nil => rfl
      | cons entry rest => rfl

/-- Every way down through a projection is typed, from the root model or from a type that a type
condition names, whatever the registry has been through before. -/
theorem compileFields_typed {context : Context} {target : Target}
    (htarget : context.options.target = some target) (hsteady : target.source.Steady)
    (hrelated : target.source.Related) {memory : Memory} (hreached : Reached target.source memory)
    {nodes : List Field} {projection : Projection}
    (h : (compileFields context nodes memory).result = .ok projection) {path : List String}
    (hpath : Path (projection.select.getD []) path) :
    ∃ type, (type = .text target.model ∨ NamedType context target.source memory nodes type) ∧
      Typed (fun type => ((Registry.modelFields target.source type).run memory).1)
        (NamedType context target.source memory nodes) type path := by
  have hcontext : context.Steady := by
    intro other hother
    rw [htarget] at hother
    cases hother
    exact hsteady
  have hroot : context.root = some (.text target.model) := by
    rw [Context.root, htarget]
    rfl
  have hfields : (fun type => ((Registry.modelFields target.source type).run memory).1) =
      memory.fieldsOf target.source := by
    funext type
    exact Registry.modelFields_run_fst target.source type memory
  rw [hfields]
  obtain ⟨map, hmap, hselect⟩ := exists_map_of_compileFields h
  rw [hselect] at hpath
  cases hpath with
  | nil => exact ⟨.text target.model, Or.inl rfl, .nil⟩
  | @cons _ name node rest hnode hrest =>
      rcases exists_entry_of_compileOver hcontext nodes hmap hnode with hnone | hwritten
      · cases hnone
      · obtain ⟨field, hfield, entries, ⟨occurrences, hexpands, hwrites⟩, hentry⟩ := hwritten
        have hname : name ∈ (kept (context.outlook memory) occurrences).map Occurrence.name := by
          rw [← map_fst_of_writes hwrites, ← List.mem_eraseDups, ← OrderedMap.keys_ofList]
          exact List.mem_map_of_mem (OrderedMap.mem_of_get? hentry)
        obtain ⟨last, hlast⟩ := exists_lastNamed hname
        obtain ⟨hmem, hlastName⟩ := mem_of_lastNamed hlast
        have hkept := List.mem_filter.mp hmem
        obtain ⟨⟨type, htype, hcase⟩, hnested⟩ :=
          types_of_expands htarget hexpands (.text target.model) hroot
            (fun condition hcondition => Or.inl ⟨field, hfield, hcondition⟩) last hkept.1
        have htyped := typed_of_loads htarget hrelated (hreached.consistent hrelated)
          (loads_of_writes hwrites hlast hentry) type htype hkept.2 hnested rest hrest
        rw [hlastName] at htyped
        exact ⟨type, hcase, htyped⟩

theorem related_people : people.Related := by
  refine Source.related_ofTable fun entry hentry => ModelFields.related_of_relations ?_
  simp only [List.mem_cons, List.not_mem_nil, or_false] at hentry
  rcases hentry with rfl | rfl
  · simp
  · simp

def afterFilter : Memory :=
  ((Registry.fieldFilter people (.text "Person") []).run Memory.empty).2

theorem reached_afterFilter : Reached people afterFilter := by
  have hopened : Reached people Memory.empty := by
    refine .opened [] 0 fun entry hentry => ?_
    cases hentry
  exact .served hopened (.fieldFilter (.text "Person") []) rfl

/-- A person's friend, whose posts are selected under a type condition. -/
def friendsPosts : List Field :=
  [{ aliasName := none, name := "person", arguments := [], directives := []
     selectionSet := some
      [plainField "friend" (some
        [.inline (some "Person") [] [plainField "posts" (some [plainField "title" none])],
          plainField "password" none])] }]

theorem result_friendsPosts :
    (compileFields (aboutPeople []) friendsPosts afterFilter).result =
      .ok { select := some
              [("friend", .relation [("posts", .relation [("title", .leaf)] [])] [])]
            included := none } := by
  rfl

theorem typed_friendsPosts :
    people.Steady ∧ people.Related ∧ Reached people afterFilter ∧
      ∃ type, (type = .text "Person" ∨
          NamedType (aboutPeople []) people afterFilter friendsPosts type) ∧
        Typed (fun type => ((Registry.modelFields people type).run afterFilter).1)
          (NamedType (aboutPeople []) people afterFilter friendsPosts) type
          ["friend", "posts", "title"] := by
  have hsteady : people.Steady := Source.steady_ofTable _
  have hpath : Path [("friend", .relation [("posts", .relation [("title", .leaf)] [])] [])]
      ["friend", "posts", "title"] := .cons rfl (.cons rfl (.cons rfl .nil))
  have htarget : (aboutPeople []).options.target = some { source := people, model := "Person" } :=
    rfl
  exact ⟨hsteady, related_people, reached_afterFilter,
    compileFields_typed htarget hsteady related_people reached_afterFilter result_friendsPosts
      hpath⟩

end Expansion

end QueryProjection
