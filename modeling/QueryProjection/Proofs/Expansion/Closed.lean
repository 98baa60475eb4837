import Mathlib.Data.List.Nodup
import QueryProjection.Proofs.Expansion.Settled
import QueryProjection.Proofs.Registry.Faithful
import QueryProjection.Source.Schema

/-!
# Sources that name no type in vain

A registry is closed if wherever a relation leads, there is a type that it knows.  Compiling from
such a registry, only the model of the root can turn out to be unknown (`known_of_closed`).
The effective type of a place is then none or a known one, and it stays so: below a relation since
the registry is closed, below any other field and for a place without a type because there is no
type, and in a fragment because a type condition counts only if the registry knows it.

The types of a schema are closed if every field has a type that can be put out
(`Schema.compileFields_known`).  A leaf is stored, and what is no leaf is an object, an interface
or a union, each of which is described.  It is for this that a union is, though it has no fields.
-/

namespace QueryProjection

namespace Source

/-- What a steady source says of a type, at any moment. -/
def view (source : Source) (type : TypeName) : Except Fault (Option ModelFields) :=
  source.answer 0 type.key

def Knows (source : Source) (type : TypeName) : Prop :=
  ∃ fields, source.view type = .ok (some fields)

/-- Whatever is described leads to types that are described, and none is said to be unknown. -/
structure Closed (source : Source) : Prop where
  steady : source.Steady
  silent : ∀ type name, source.view type ≠ .error (.unknownType name)
  related : ∀ type fields, source.view type = .ok (some fields) →
    ∀ name target, fields.related? name = some target →
      ∃ next, target = .type next ∧ source.Knows next

end Source

namespace Expansion

/-- An outcome at home in a source: it still remembers what the source says, and did not fail for
want of a type.  Its value is one that something may be related to. -/
structure AtHome (source : Source) {α : Type} (values : α → α → Prop) (outcome : Outcome α) :
    Prop where
  keeps : outcome.memory.Faithful source source.view
  known : ∀ type, outcome.result ≠ .error (.unknownType type)
  values : ∀ a, outcome.result = .ok a → ∃ b, values a b

/-- Of the second computation no more is asked than values for those of the first. -/
def StaysHome (source : Source) {α : Type} (values : α → α → Prop)
    (computation _beside : Compile α) : Prop :=
  ∀ memory, memory.Faithful source source.view → AtHome source values (computation memory)

namespace StaysHome

variable {source : Source} {α β : Type} {values : α → α → Prop} {values' : β → β → Prop}

theorem done {a b : α} (h : values a b) : StaysHome source values (pure a) (pure b) := by
  intro memory hm
  refine ⟨hm, fun type hfault => ?_, fun value hvalue => ?_⟩
  · cases hfault
  · cases hvalue
    exact ⟨b, h⟩

theorem step {first first' : Compile α} {second second' : α → Compile β}
    (h : StaysHome source values first first')
    (hsteps : ∀ a b, values a b → StaysHome source values' (second a) (second' b)) :
    StaysHome source values' (first >>= second) (first' >>= second') := by
  intro memory hm
  obtain ⟨hkeeps, hknown, hvalues⟩ := h memory hm
  cases hr : (first memory).result with
  | error fault =>
      rw [Compile.bind_of_error hr]
      refine ⟨hkeeps, fun type hfault => ?_, fun value hvalue => ?_⟩
      · cases hfault
        exact hknown type hr
      · cases hvalue
  | ok a =>
      obtain ⟨b, hab⟩ := hvalues a hr
      obtain ⟨hkeeps', hknown', hvalues'⟩ := hsteps a b hab _ hkeeps
      rw [Compile.bind_of_ok hr]
      exact ⟨hkeeps', hknown', hvalues'⟩

theorem of_known {computation : Compile α}
    (hkeeps : ∀ memory, memory.Faithful source source.view →
      (computation memory).memory.Faithful source source.view)
    (hknown : ∀ memory, memory.Faithful source source.view →
      ∀ type, (computation memory).result ≠ .error (.unknownType type)) :
    StaysHome source Eq computation computation :=
  fun memory hm => ⟨hkeeps memory hm, hknown memory hm, fun a _ => ⟨a, rfl⟩⟩

end StaysHome

def atHome (source : Source) : Correspondence where
  types type type' := type = type' ∧ ∀ name, type = some name → source.Knows name
  rel := StaysHome source
  done := StaysHome.done
  step := StaysHome.step

variable {source : Source}

theorem types_none : (atHome source).types none none := by
  refine ⟨rfl, fun name hname => ?_⟩
  cases hname

theorem unlooked_atHome : (atHome source).Unlooked where
  logged _ h := .of_known (fun _ hm => hm) fun _ _ => h

section Lookups

theorem hasType_iff_knows {memory : Memory} (hm : memory.Faithful source source.view)
    (type : TypeName) :
    ((Registry.hasType source type).run memory).1 = .ok true ↔ source.Knows type := by
  simp only [Registry.hasType_eq_true, Memory.fieldsOf_eq_ok, hm.described, Source.Knows]

variable (hclosed : source.Closed)

include hclosed

theorem lookups_view :
    (Law.ofInvariant (Memory.Faithful source source.view)).Lookups source :=
  lookups_faithful hclosed.steady source.view

/-- A type that is found to be known is known. -/
theorem staysHome_hasType (type : TypeName) :
    StaysHome source (fun known known' => known = known' ∧ (known = true → source.Knows type))
      (Compile.ofLookup (Registry.hasType source type))
      (Compile.ofLookup (Registry.hasType source type)) := by
  intro memory hm
  refine ⟨(lookups_view hclosed).hasType type memory hm, fun name hfault => ?_,
    fun known hknown => ⟨known, rfl, fun htrue => ?_⟩⟩
  · simp only [Compile.ofLookup_apply, Registry.hasType_run, hm.described, map_eq_error] at hfault
    exact hclosed.silent type name hfault
  · subst htrue
    exact (hasType_iff_knows hm type).mp hknown

variable {type : TypeName} (hknows : source.Knows type)

omit hclosed

theorem fieldsOf_of_knows {fields : ModelFields} (hview : source.view type = .ok (some fields))
    {memory : Memory} (hm : memory.Faithful source source.view) :
    memory.fieldsOf source type = .ok fields :=
  Memory.fieldsOf_eq_ok.mpr ((hm.described type).trans hview)

include hclosed hknows

theorem staysHome_modelFields :
    StaysHome source Eq (Compile.ofLookup (Registry.modelFields source type))
      (Compile.ofLookup (Registry.modelFields source type)) := by
  obtain ⟨fields, hview⟩ := hknows
  refine .of_known (fun memory hm => (lookups_view hclosed).modelFields type memory hm)
    fun memory hm name hfault => ?_
  rw [Compile.ofLookup_apply, Registry.modelFields_run_fst, fieldsOf_of_knows hview hm] at hfault
  cases hfault

theorem staysHome_fieldFilter (exclude : List String) :
    StaysHome source Eq (Compile.ofLookup (Registry.fieldFilter source type exclude))
      (Compile.ofLookup (Registry.fieldFilter source type exclude)) := by
  obtain ⟨fields, hview⟩ := hknows
  refine .of_known (fun memory hm => (lookups_view hclosed).fieldFilter type exclude memory hm)
    fun memory hm name hfault => ?_
  have hfilter := Registry.filter_fieldFilter source type exclude memory
  simp only [Compile.ofLookup_apply] at hfault
  rw [hfault] at hfilter
  rcases hm.filterOf type exclude with ⟨filter, _, hgiven, -⟩ | ⟨fault, -, hunknown⟩
  · rw [hgiven] at hfilter
    cases hfilter
  · rw [fieldsOf_of_knows hview hm] at hunknown
    cases hunknown

/-- A relation of a type that is known leads to one that is known. -/
theorem staysHome_typeBelow (field : String) :
    StaysHome source (atHome source).types
      (Compile.ofLookup (Registry.typeBelow source type field))
      (Compile.ofLookup (Registry.typeBelow source type field)) := by
  obtain ⟨fields, hview⟩ := hknows
  intro memory hm
  have hkeeps := (lookups_view hclosed).modelFields type memory hm
  simp only [Compile.ofLookup_apply, Registry.typeBelow_run, Memory.below,
    fieldsOf_of_knows hview hm]
  cases hrelated : fields.related? field with
  | none =>
      refine ⟨hkeeps, fun name hfault => ?_, fun below hbelow => ⟨none, ?_⟩⟩
      · cases hfault
      · cases hbelow
        exact types_none
  | some target =>
      obtain ⟨next, rfl, hnext⟩ := hclosed.related type fields hview field target hrelated
      refine ⟨hkeeps, fun name hfault => ?_, fun below hbelow => ⟨below, rfl, ?_⟩⟩
      · cases hfault
      · cases hbelow
        intro name hname
        cases hname
        exact hnext

end Lookups

/-! ### Walks -/

section Walks

variable {context : Context} {target : Target} (htarget : context.options.target = some target)
  (hclosed : target.source.Closed)

include htarget hclosed

theorem contexts_atHome : (atHome target.source).Contexts context context where
  filterAt := by
    rintro type _ ⟨rfl, hknows⟩
    rcases type with _ | name
    · simp only [Context.filterAt, htarget]
      exact StaysHome.done rfl
    · simp only [Context.filterAt, htarget]
      exact (atHome target.source).step (staysHome_fieldFilter hclosed (hknows name rfl) _)
        fun _ _ hissued => StaysHome.done (congrArg IssuedFilter.filter hissued)
  typeBelow := by
    rintro type _ field kind ⟨rfl, hknows⟩
    rcases kind with _ | _
    · exact StaysHome.done types_none
    · rcases type with _ | name
      · simp only [Context.typeBelow, htarget]
        exact StaysHome.done types_none
      · simp only [Context.typeBelow, htarget]
        exact staysHome_typeBelow hclosed (hknows name rfl) field
  typeWithin := by
    rintro type _ condition ⟨rfl, hknows⟩
    rcases type with _ | outer
    · simp only [Context.typeWithin, htarget]
      exact StaysHome.done ⟨rfl, hknows⟩
    · rcases condition with _ | inner
      · simp only [Context.typeWithin, htarget]
        exact StaysHome.done ⟨rfl, hknows⟩
      · simp only [Context.typeWithin, htarget]
        refine (atHome target.source).step (staysHome_hasType hclosed (.text inner)) ?_
        rintro known _ ⟨rfl, hinner⟩
        rcases known with _ | _
        · exact (atHome target.source).step (unlooked_atHome.note _) fun _ _ _ =>
            StaysHome.done ⟨rfl, hknows⟩
        · refine StaysHome.done ⟨rfl, fun name hname => ?_⟩
          cases hname
          exact hinner rfl
  fragment? name := unlooked_atHome.found name _ _ fun _ _ => trivial
  forwarded arguments := unlooked_atHome.forwarded context arguments
  dropped _ ht := ht.1 ▸ unlooked_atHome.note _
  unexpected _ := unlooked_atHome.stop fun _ hfault => nomatch hfault

theorem compilations_atHome (hroot : target.source.Knows (.text target.model)) :
    (atHome target.source).Compilations context context where
  toContexts := contexts_atHome htarget hclosed
  key ht := ht.1 ▸ rfl
  endless _ ht := ht.1 ▸ unlooked_atHome.stop fun _ hfault => nomatch hfault
  root := by
    simp only [Context.root, htarget]
    refine ⟨rfl, fun name hname => ?_⟩
    cases hname
    exact hroot
  checkRoot := by
    simp only [Context.checkRoot, htarget]
    exact (atHome target.source).step (staysHome_modelFields hclosed hroot) fun _ _ _ =>
      StaysHome.done rfl
  remembered := .of_known (fun _ hm => hm) fun _ _ _ hfault => nomatch hfault
  budget _ := rfl

/-- If the root model is known, no type turns out to be unknown. -/
theorem known_of_closed (hroot : target.source.Knows (.text target.model)) {memory : Memory}
    (hm : memory.Faithful target.source target.source.view) (nodes : List Field)
    (type : TypeName) :
    (compileFields context nodes memory).result ≠ .error (.unknownType type) :=
  ((compilations_atHome htarget hclosed hroot).compileFields nodes memory hm).known type

end Walks

end Expansion

/-- Requests to a registry that was never used before leave it with what the source says. -/
theorem Served.view {source : Source} (hsteady : source.Steady) {start memory : Memory}
    (hcache : start.cache = []) (hfilters : start.filters = [])
    (h : Served source start memory) : memory.Faithful source source.view := by
  refine h.faithful hsteady (.of_unused (fun type => ?_) hfilters)
  rw [Memory.described, hcache]
  exact hsteady _ 0 type.key

namespace Schema

/-- Every field of a model has a type that can be put out, and a name of its own in its model. -/
structure Valid (document : Document) : Prop where
  output : ∀ type ∈ models document, ∀ field ∈ fieldsOf document type,
    isLeaf document field.type.name = true ∨ field.type.name ∈ models document
  distinct : ∀ type ∈ models document,
    ((fieldsOf document type).map FieldDefinition.name).Nodup

instance (document : Document) : Decidable (Valid document) :=
  decidable_of_iff
    ((∀ type ∈ models document, ∀ field ∈ fieldsOf document type,
        isLeaf document field.type.name = true ∨ field.type.name ∈ models document) ∧
      ∀ type ∈ models document, ((fieldsOf document type).map FieldDefinition.name).Nodup)
    ⟨fun h => ⟨h.1, h.2⟩, fun h => ⟨h.output, h.distinct⟩⟩

variable {document : Document} {type : String}

theorem mem_scalars {name : String} :
    name ∈ (modelFields document type).scalars ↔ ∃ field ∈ fieldsOf document type,
      field.name = name ∧ isLeaf document field.type.name = true := by
  simp only [modelFields, List.mem_map, List.mem_filter]
  constructor
  · rintro ⟨_, ⟨⟨field, hfield, rfl⟩, hleaf⟩, rfl⟩
    exact ⟨field, hfield, rfl, hleaf⟩
  · rintro ⟨field, hfield, rfl, hleaf⟩
    exact ⟨_, ⟨⟨field, hfield, rfl⟩, hleaf⟩, rfl⟩

/-- A relation is a field that is no leaf, and leads to its type, whatever it is wrapped in. -/
theorem exists_field_of_related {name : String} {target : RelationTarget}
    (h : (modelFields document type).related? name = some target) :
    ∃ field ∈ fieldsOf document type, field.name = name ∧
      isLeaf document field.type.name = false ∧ target = .type (.text field.type.name) := by
  simp only [ModelFields.related?, modelFields, OrderedMap.get?_ofList] at h
  obtain ⟨⟨_, _⟩, hlast, rfl⟩ := Option.map_eq_some_iff.mp h
  have hmem := List.mem_of_getLast? hlast
  simp only [List.mem_filter, List.mem_map, decide_eq_true_eq, Prod.mk.injEq,
    Bool.not_eq_eq_eq_not, Bool.not_true] at hmem
  obtain ⟨⟨_, ⟨⟨field, hfield, rfl⟩, hleaf⟩, rfl, rfl⟩, rfl⟩ := hmem
  exact ⟨field, hfield, rfl, hleaf, rfl⟩

theorem exists_related {field : FieldDefinition} (hfield : field ∈ fieldsOf document type)
    (hleaf : isLeaf document field.type.name = false) :
    ∃ target, (modelFields document type).related? field.name = some target := by
  refine OrderedMap.exists_get?_of_mem ?_
  rw [modelFields, OrderedMap.keys_ofList, List.mem_eraseDups]
  simp only [List.mem_map, List.mem_filter, Bool.not_eq_eq_eq_not, Bool.not_true]
  exact ⟨_, ⟨_, ⟨⟨field, hfield, rfl⟩, hleaf⟩, rfl⟩, rfl⟩

/-- A field is stored if it is a leaf, and else it is a relation to its type, and never both. -/
theorem stored_or_related (hdistinct : ((fieldsOf document type).map FieldDefinition.name).Nodup)
    {field : FieldDefinition} (hfield : field ∈ fieldsOf document type) :
    (field.name ∈ (modelFields document type).scalars ∧
        (modelFields document type).related? field.name = none) ∨
      (field.name ∉ (modelFields document type).scalars ∧
        (modelFields document type).related? field.name =
          some (.type (.text field.type.name))) := by
  have honly : ∀ other ∈ fieldsOf document type, other.name = field.name → other = field :=
    fun other hother hname => List.inj_on_of_nodup_map hdistinct hother hfield hname
  cases hleaf : isLeaf document field.type.name with
  | true =>
      refine Or.inl ⟨mem_scalars.mpr ⟨field, hfield, rfl, hleaf⟩, ?_⟩
      cases hrelated : (modelFields document type).related? field.name with
      | none => rfl
      | some target =>
          obtain ⟨other, hother, hname, hnot, -⟩ := exists_field_of_related hrelated
          rw [honly other hother hname, hleaf] at hnot
          cases hnot
  | false =>
      refine Or.inr ⟨fun hscalar => ?_, ?_⟩
      · obtain ⟨other, hother, hname, hstored⟩ := mem_scalars.mp hscalar
        rw [honly other hother hname, hleaf] at hstored
        cases hstored
      · obtain ⟨target, htarget⟩ := exists_related hfield hleaf
        obtain ⟨other, hother, hname, -, rfl⟩ := exists_field_of_related htarget
        rw [htarget, honly other hother hname]

/-! ### The source of a schema -/

theorem eq_modelFields_of_describe {fields : ModelFields}
    (h : describe document type = some fields) : fields = modelFields document type := by
  unfold describe at h
  split at h
  · exact (Option.some.inj h).symm
  · cases h

theorem exists_of_view {name : TypeName} {fields : ModelFields}
    (h : (source document).view name = .ok (some fields)) :
    ∃ type ∈ models document, fields = modelFields document type := by
  obtain ⟨type, -, hdescribed⟩ := Source.exists_of_ofLookup h
  exact ⟨type, mem_models_of_describe hdescribed, eq_modelFields_of_describe hdescribed⟩

theorem view_of_model (h : type ∈ models document) :
    (source document).view (.text type) = .ok (some (modelFields document type)) := by
  show Except.ok (describe document type) = _
  rw [describe, if_pos (List.contains_iff_mem.mpr h)]

theorem knows_iff : (source document).Knows (.text type) ↔ type ∈ models document := by
  constructor
  · rintro ⟨fields, hview⟩
    exact mem_models_of_describe (Except.ok.inj hview)
  · exact fun h => ⟨_, view_of_model h⟩

/-- In a valid schema what is not stored is a model. -/
theorem exists_model_of_related (hvalid : Valid document) (hmodel : type ∈ models document)
    {name : String} {target : RelationTarget}
    (h : (modelFields document type).related? name = some target) :
    ∃ next ∈ models document, target = .type (.text next) := by
  obtain ⟨field, hfield, -, hleaf, rfl⟩ := exists_field_of_related h
  rcases hvalid.output type hmodel field hfield with hstored | hnext
  · rw [hleaf] at hstored
    cases hstored
  · exact ⟨_, hnext, rfl⟩

theorem closed_source (hvalid : Valid document) : (source document).Closed where
  steady := steady_source document
  silent type name h := by
    simp only [Source.view, source, Source.ofLookup] at h
    split at h <;> cases h
  related type fields h name target htarget := by
    obtain ⟨model, hmodel, rfl⟩ := exists_of_view h
    obtain ⟨next, hnext, rfl⟩ := exists_model_of_related hvalid hmodel htarget
    exact ⟨_, rfl, knows_iff.mpr hnext⟩

/-- Of a registry over a valid schema: a field of a known model is stored or a relation to its
type, and not both, and relations lead to known models.  So whatever is compiled from a known model,
no type turns out to be unknown. -/
theorem compileFields_known (hvalid : Valid document) {start memory : Memory}
    (hcache : start.cache = []) (hfilters : start.filters = [])
    (hserved : Served (source document) start memory) :
    (∀ model, ((Registry.hasType (source document) (.text model)).run memory).1 = .ok true →
      ∃ fields, ((Registry.modelFields (source document) (.text model)).run memory).1 =
          .ok fields ∧
        (∀ field ∈ fieldsOf document model,
          (field.name ∈ fields.scalars ∧ fields.related? field.name = none) ∨
            (field.name ∉ fields.scalars ∧
              fields.related? field.name = some (.type (.text field.type.name)))) ∧
        ∀ name target, fields.related? name = some target → ∃ next, target = .type (.text next) ∧
          ((Registry.hasType (source document) (.text next)).run memory).1 = .ok true) ∧
      ∀ (context : Context) (model : String),
        context.options.target = some { source := source document, model } →
        ((Registry.hasType (source document) (.text model)).run memory).1 = .ok true →
        ∀ nodes type, (compileFields context nodes memory).result ≠ .error (.unknownType type) := by
  have hclosed := closed_source hvalid
  have hm := hserved.view (steady_source document) hcache hfilters
  constructor
  · intro model hmodel
    rw [Expansion.hasType_iff_knows hm, knows_iff] at hmodel
    refine ⟨modelFields document model, ?_, ?_, ?_⟩
    · rw [Registry.modelFields_run_fst]
      exact Expansion.fieldsOf_of_knows (view_of_model hmodel) hm
    · exact fun field hfield => stored_or_related (hvalid.distinct model hmodel) hfield
    · intro name target htarget
      obtain ⟨next, hnext, rfl⟩ := exists_model_of_related hvalid hmodel htarget
      exact ⟨next, rfl, (Expansion.hasType_iff_knows hm _).mpr (knows_iff.mpr hnext)⟩
  · intro context model htarget hmodel
    rw [Expansion.hasType_iff_knows hm] at hmodel
    exact Expansion.known_of_closed htarget hclosed hmodel hm

def outputField (name : String) (type : TypeReference) : FieldDefinition where
  description := none
  name := name
  arguments := []
  type := type
  directives := []

/-- People have pets, which are cats or dogs, and cats have a home, given afterwards. -/
def petShop : Document where
  definitions :=
    [.typeSystem none (.object "Person" [] []
      [outputField "name" (.nonNull (.named "String")), outputField "mood" (.named "Mood"),
       outputField "pets" (.nonNull (.list (.nonNull (.named "Pet"))))]),
     .typeSystem none (.enum "Mood" [] [{ description := none, name := "CALM", directives := [] }]),
     .typeSystem none (.union "Pet" [] ["Cat", "Dog"]),
     .typeSystem none (.object "Cat" ["Tame"] [] [outputField "owner" (.named "Person")]),
     .typeSystem none (.object "Dog" ["Tame"] [] [outputField "owner" (.named "Person")]),
     .typeSystem none (.interface "Tame" [] [] [outputField "owner" (.named "Person")]),
     .typeExtension (.object "Cat" [] [] [outputField "home" (.named "Tame")])]

def petsOfPerson : Field where
  aliasName := none
  name := "person"
  arguments := []
  directives := []
  selectionSet := some
    [Expansion.plainField "pets" (some
      [Expansion.plainField "owner" none,
       .inline (some "Cat") [] [Expansion.plainField "home" (some
         [Expansion.plainField "owner" (some [Expansion.plainField "mood" none])])],
       .inline (some "Parrot") [] [Expansion.plainField "words" none]])]

/-- Compiled from people the union, the interface and the missing type are passed, and no type is
unknown, whatever else is selected. -/
theorem known_petShop :
    Valid petShop ∧ Served (source petShop) .empty .empty ∧
      ((Registry.hasType (source petShop) (.text "Person")).run .empty).1 = .ok true ∧
      (∃ fields, ((Registry.modelFields (source petShop) (.text "Person")).run .empty).1 =
          .ok fields ∧ fields.scalars = ["name", "mood"] ∧
        fields.related? "pets" = some (.type (.text "Pet")) ∧
        ((Registry.hasType (source petShop) (.text "Pet")).run .empty).1 = .ok true) ∧
      (∀ fragments bindings exclude strict nodes type, (compileFields
        { fragments, bindings
          options := { exclude, target := some { source := source petShop, model := "Person" },
                       strict } } nodes .empty).result ≠ .error (.unknownType type)) ∧
      (compileFields
        { fragments := none, bindings := none
          options := { exclude := [], target := some { source := source petShop, model := "Person" },
                       strict := true } } [petsOfPerson] .empty).result =
        .ok (.ofSelect [("pets", .relation [("home", .relation
          [("owner", .relation [("mood", .leaf)] [])] [])] [])]) := by
  have hvalid : Valid petShop := by decide
  have hserved : Served (source petShop) .empty .empty := .start
  obtain ⟨hmodels, hcompiles⟩ := compileFields_known hvalid rfl rfl hserved
  obtain ⟨fields, hfields, -, hrelated⟩ := hmodels "Person" rfl
  have hpets : fields.scalars = ["name", "mood"] ∧
      fields.related? "pets" = some (.type (.text "Pet")) := by
    cases hfields
    exact ⟨rfl, rfl⟩
  obtain ⟨next, hnext, hknown⟩ := hrelated "pets" _ hpets.2
  cases hnext
  exact ⟨hvalid, hserved, rfl, ⟨fields, hfields, hpets.1, hpets.2, hknown⟩,
    fun _ _ _ _ nodes type => hcompiles _ "Person" rfl rfl nodes type, rfl⟩

end Schema

end QueryProjection
