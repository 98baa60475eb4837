import QueryProjection.Registry

/-!
# What a registry would answer

A look-up changes what is remembered, so the answers of a registry seem to depend on the
look-ups made before.  For a source that does not change its mind they do not.  What a
memory would answer to each question is written here as plain functions, every look-up is
shown to give that answer, and to leave a memory that would answer everything as before.

A filter is compared for one list of excluded names only: a filter that is remembered for
the same set of names may have been made for another list of them.
-/

namespace QueryProjection

namespace Memory

/-- What would be found out about a type: what is remembered of it, or else what the source
says. -/
def described (memory : Memory) (source : Source) (type : TypeName) :
    Except Fault (Option ModelFields) :=
  match memory.cache.fields? type with
  | some fields => .ok (some fields)
  | none => source.answer memory.asked.length type.key

def fieldsOf (memory : Memory) (source : Source) (type : TypeName) : Except Fault ModelFields :=
  match memory.described source type with
  | .ok (some fields) => .ok fields
  | .ok none => .error (.unknownType type)
  | .error fault => .error fault

def below (memory : Memory) (source : Source) (type : TypeName) (field : String) :
    Except Fault (Option TypeName) :=
  match memory.fieldsOf source type with
  | .error fault => .error fault
  | .ok fields =>
      match fields.related? field with
      | some (.type name) => .ok (some name)
      | some .untyped | none => .ok none
      | some (.unusable value) => .error (.noName value.shape)

/-- The filter that would be given: one that was made before, or else a new one. -/
def filterOf (memory : Memory) (source : Source) (type : TypeName) (exclude : List String) :
    Except Fault FieldFilter :=
  match memory.filter? { type := type.key, exclude } with
  | some issued => .ok issued.filter
  | none =>
      match memory.fieldsOf source type with
      | .ok fields => .ok { fields := some fields, exclude }
      | .error fault => .error fault

structure Alike (source : Source) (exclude : List String) (first second : Memory) : Prop where
  described : ∀ type, first.described source type = second.described source type
  filterOf : ∀ type, first.filterOf source type exclude = second.filterOf source type exclude

variable {source : Source} {exclude : List String} {first second third : Memory}

theorem Alike.refl (memory : Memory) : Alike source exclude memory memory :=
  ⟨fun _ => rfl, fun _ => rfl⟩

theorem Alike.trans (h : Alike source exclude first second)
    (h' : Alike source exclude second third) : Alike source exclude first third :=
  ⟨fun type => (h.described type).trans (h'.described type),
    fun type => (h.filterOf type).trans (h'.filterOf type)⟩

theorem Alike.fieldsOf (h : Alike source exclude first second) (type : TypeName) :
    first.fieldsOf source type = second.fieldsOf source type := by
  simp only [Memory.fieldsOf, h.described type]

theorem Alike.below (h : Alike source exclude first second) (type : TypeName)
    (field : String) : first.below source type field = second.below source type field := by
  simp only [Memory.below, h.fieldsOf type]

/-- As long as the remembered filters are the same, only the types matter. -/
theorem Alike.of_described (hfilters : first.filters = second.filters)
    (h : ∀ type, first.described source type = second.described source type) :
    Alike source exclude first second where
  described := h
  filterOf type := by
    simp only [Memory.filterOf, Memory.filter?, hfilters, Memory.fieldsOf, h type]

/-- Having asked more questions makes no difference to a source that does not change. -/
theorem alike_asked (hsteady : source.Steady) (memory : Memory) (asked : List TypeName) :
    Alike source exclude { memory with asked } memory := by
  refine Alike.of_described rfl fun type => ?_
  simp only [described]
  rw [hsteady asked.length memory.asked.length type.key]

theorem fields?_enter (cache : FieldCache) (type other : TypeName) (fields : ModelFields) :
    (cache.enter type fields).fields? other =
      if type.key = other.key then some fields else cache.fields? other := by
  simp only [FieldCache.fields?, FieldCache.enter]
  by_cases h : type.key = other.key
  · rw [h, OrderedMap.get?_insert_self]
    simp
  · rw [OrderedMap.get?_insert_of_ne _ _ h]
    simp [h]

/-- Remembering what the source says of a type makes no difference. -/
theorem alike_entered (memory : Memory) {type : TypeName} {fields : ModelFields}
    (hnew : memory.cache.fields? type = none)
    (hdescribed : memory.described source type = .ok (some fields)) :
    Alike source exclude { memory with cache := memory.cache.enter type fields } memory := by
  have hanswer : source.answer memory.asked.length type.key = .ok (some fields) := by
    simpa only [described, hnew] using hdescribed
  refine Alike.of_described rfl fun other => ?_
  simp only [described, fields?_enter]
  by_cases h : type.key = other.key
  · have hnone : memory.cache.fields? other = none := by
      simpa only [FieldCache.fields?, h] using hnew
    simp only [h, if_true, hnone]
    rw [← h, hanswer]
  · simp only [h, if_false]

/-- Types of one name are described alike, however the name is written. -/
theorem described_of_key {type other : TypeName} (h : type.key = other.key) (memory : Memory)
    (source : Source) : memory.described source type = memory.described source other := by
  simp only [described, FieldCache.fields?, h]

theorem fieldsOf_eq_ok {memory : Memory} {type : TypeName} {fields : ModelFields} :
    memory.fieldsOf source type = .ok fields ↔
      memory.described source type = .ok (some fields) := by
  unfold Memory.fieldsOf
  split <;> rename_i h <;> simp [h]

theorem sameNames_refl (names : List String) : sameNames names names = true := by
  simp [sameNames]

theorem filter?_issued (memory : Memory) (key other : FilterKey) (issued : IssuedFilter)
    (next : Nat) :
    ({ memory with filters := memory.filters ++ [(key, issued)], nextSerial := next } :
        Memory).filter? other =
      (memory.filter? other).or (if key.same other then some issued else none) := by
  simp only [filter?, List.find?_append, Option.map_or]
  by_cases h : key.same other = true
  · simp [h]
  · simp [h]

theorem eq_of_same {known key : FilterKey} (h : known.same key = true) :
    known.type = key.type ∧ ∀ name, name ∈ known.exclude ↔ name ∈ key.exclude := by
  simp only [FilterKey.same, sameNames, Bool.and_eq_true, beq_iff_eq, List.all_eq_true,
    List.contains_iff_mem] at h
  obtain ⟨htype, hknown, hkey⟩ := h
  exact ⟨htype, fun name => ⟨hknown name, hkey name⟩⟩

/-- A filter that is found was made for the same type, and to leave out the same names. -/
theorem exists_of_filter? {memory : Memory} {key : FilterKey} {issued : IssuedFilter}
    (h : memory.filter? key = some issued) :
    ∃ known, (known, issued) ∈ memory.filters ∧ known.type = key.type ∧
      ∀ name, name ∈ known.exclude ↔ name ∈ key.exclude := by
  obtain ⟨⟨known, _⟩, hentry, rfl⟩ := Option.map_eq_some_iff.mp h
  have hsame := List.find?_some hentry
  exact ⟨known, List.mem_of_find?_eq_some hentry, eq_of_same hsame⟩

/-- Remembering the filter that would be made anyway makes no difference. -/
theorem alike_issued {memory : Memory} {type : TypeName} {fields : ModelFields}
    {serial next : Nat} (hfields : memory.fieldsOf source type = .ok fields) :
    Alike source exclude
      { memory with
        filters := memory.filters ++
          [({ type := type.key, exclude },
            { serial, filter := { fields := some fields, exclude } })]
        nextSerial := next } memory where
  described _ := rfl
  filterOf other := by
    simp only [Memory.filterOf, filter?_issued]
    cases hfound : memory.filter? { type := other.key, exclude } with
    | some issued => rfl
    | none =>
        simp only [FilterKey.same, sameNames_refl, Bool.and_true, Option.none_or, beq_iff_eq]
        by_cases h : type.key = other.key
        · have hother : memory.fieldsOf source other = .ok fields := by
            rw [fieldsOf_eq_ok] at hfields ⊢
            rw [← described_of_key h, hfields]
          simp only [h, if_true, hother]
        · simp only [h, if_false]
          rfl

end Memory

/-! ### The look-ups give those answers -/

namespace Registry

variable {source : Source}

theorem run_bind {α β : Type} (first : Lookup α) (second : α → Lookup β) (memory : Memory) :
    (first >>= second).run memory =
      match first.run memory with
      | (.ok value, after) => (second value).run after
      | (.error fault, after) => (.error fault, after) := by
  show ExceptT.bindCont second (first.run memory).1 (first.run memory).2 = _
  obtain ⟨result, after⟩ := first.run memory
  cases result <;> rfl

theorem run_get (memory : Memory) : (get : Lookup Memory).run memory = (.ok memory, memory) := rfl

theorem run_pure {α : Type} (value : α) (memory : Memory) :
    (pure value : Lookup α).run memory = (.ok value, memory) := rfl

theorem ask_run (type : TypeName) (memory : Memory) :
    (ask source type).run memory =
      (source.answer memory.asked.length type.key,
        { memory with asked := memory.asked ++ [type] }) := by
  simp only [ask, run_bind, run_get]
  cases source.answer memory.asked.length type.key <;> rfl

/-- What is known is found out without a question; what the source says is not kept. -/
theorem hasType_run (type : TypeName) (memory : Memory) :
    (hasType source type).run memory =
      ((memory.described source type).map Option.isSome,
        if (memory.cache.fields? type).isSome then memory
        else { memory with asked := memory.asked ++ [type] }) := by
  simp only [hasType, run_bind, run_get, Memory.described]
  cases h : memory.cache.fields? type with
  | some fields => rfl
  | none =>
      simp only [Option.isSome_none, Bool.false_eq_true, if_false, run_bind, ask_run]
      cases source.answer memory.asked.length type.key <;> rfl

theorem hasType_eq_true {type : TypeName} {memory : Memory} :
    ((hasType source type).run memory).1 = .ok true ↔
      ∃ fields, memory.fieldsOf source type = .ok fields := by
  simp only [hasType_run, map_eq_ok, Memory.fieldsOf_eq_ok]
  constructor
  · rintro ⟨found, hfound, hsome⟩
    obtain ⟨fields, rfl⟩ := Option.isSome_iff_exists.mp hsome
    exact ⟨fields, hfound⟩
  · rintro ⟨fields, hfields⟩
    exact ⟨some fields, hfields, rfl⟩

/-- Fields are kept when the source gives them, and only then. -/
theorem modelFields_run (type : TypeName) (memory : Memory) :
    (modelFields source type).run memory =
      (memory.fieldsOf source type,
        match memory.cache.fields? type with
        | some _ => memory
        | none =>
            match memory.described source type with
            | .ok (some fields) =>
                { memory with
                  asked := memory.asked ++ [type], cache := memory.cache.enter type fields }
            | _ => { memory with asked := memory.asked ++ [type] }) := by
  simp only [modelFields, run_bind, run_get, Memory.fieldsOf, Memory.described]
  cases h : memory.cache.fields? type with
  | some fields => rfl
  | none =>
      simp only [run_bind, ask_run]
      cases source.answer memory.asked.length type.key with
      | error fault => rfl
      | ok answer => cases answer <;> rfl

theorem modelFields_run_fst (source : Source) (type : TypeName) (memory : Memory) :
    ((modelFields source type).run memory).1 = memory.fieldsOf source type := by
  rw [modelFields_run]

theorem related_run (type : TypeName) (field : String) (memory : Memory) :
    ((related source type field).run memory).1 =
      (memory.fieldsOf source type).map fun fields => fields.related? field := by
  have hfields := modelFields_run_fst source type memory
  rw [related, run_bind]
  generalize (modelFields source type).run memory = looked at hfields
  obtain ⟨result, after⟩ := looked
  simp only at hfields
  rw [← hfields]
  cases result <;> rfl

theorem typeBelow_run (type : TypeName) (field : String) (memory : Memory) :
    (typeBelow source type field).run memory =
      (memory.below source type field, ((modelFields source type).run memory).2) := by
  have hfields := modelFields_run_fst source type memory
  simp only [typeBelow, related, run_bind, Memory.below]
  generalize (modelFields source type).run memory = looked at hfields
  obtain ⟨result, after⟩ := looked
  simp only at hfields
  rw [← hfields]
  cases result with
  | error fault => rfl
  | ok fields =>
      simp only [run_pure]
      cases fields.related? field with
      | none => rfl
      | some target => cases target <;> rfl

/-- A filter that was made is given again; a new one is kept with its number. -/
theorem fieldFilter_run (type : TypeName) (exclude : List String) (memory : Memory) :
    (fieldFilter source type exclude).run memory =
      match memory.filter? { type := type.key, exclude } with
      | some issued => (.ok issued, memory)
      | none =>
          let after := ((modelFields source type).run memory).2
          match memory.fieldsOf source type with
          | .error fault => (.error fault, after)
          | .ok fields =>
              let issued : IssuedFilter :=
                { serial := after.nextSerial, filter := { fields := some fields, exclude } }
              (.ok issued,
                { after with
                  filters := after.filters ++ [({ type := type.key, exclude }, issued)]
                  nextSerial := after.nextSerial + 1 }) := by
  have hfields := modelFields_run_fst source type memory
  simp only [fieldFilter, run_bind, run_get]
  cases memory.filter? { type := type.key, exclude } with
  | some issued => rfl
  | none =>
      simp only [run_bind, run_get]
      generalize (modelFields source type).run memory = looked at hfields
      obtain ⟨result, after⟩ := looked
      simp only at hfields
      rw [← hfields]
      cases result <;> rfl

theorem filter_fieldFilter (source : Source) (type : TypeName) (exclude : List String)
    (memory : Memory) :
    ((fieldFilter source type exclude).run memory).1.map IssuedFilter.filter =
      memory.filterOf source type exclude := by
  rw [fieldFilter_run]
  unfold Memory.filterOf
  cases memory.filter? { type := type.key, exclude } with
  | some issued => rfl
  | none => cases memory.fieldsOf source type <;> rfl

/-! ### What look-ups do to the filters -/

theorem filters_hasType (type : TypeName) (memory : Memory) :
    ((hasType source type).run memory).2.filters = memory.filters := by
  rw [hasType_run]
  simp only
  split <;> rfl

theorem filters_modelFields (type : TypeName) (memory : Memory) :
    ((modelFields source type).run memory).2.filters = memory.filters := by
  rw [modelFields_run]
  simp only
  split
  · rfl
  · split <;> rfl

/-- A filter that is remembered afterwards is an old one, or the new one.  That one is made of
fields that are looked up, and the look-up leaves the cache behind. -/
theorem mem_filters_fieldFilter {type : TypeName} {exclude : List String} {memory : Memory}
    {entry : FilterKey × IssuedFilter}
    (h : entry ∈ ((fieldFilter source type exclude).run memory).2.filters) :
    entry ∈ memory.filters ∨
      ∃ serial fields, memory.fieldsOf source type = .ok fields ∧
        ((fieldFilter source type exclude).run memory).2.cache =
          ((modelFields source type).run memory).2.cache ∧
        entry = ({ type := type.key, exclude },
          { serial, filter := { fields := some fields, exclude } }) := by
  rw [fieldFilter_run] at h ⊢
  cases hfound : memory.filter? { type := type.key, exclude } with
  | some issued =>
      rw [hfound] at h
      exact Or.inl h
  | none =>
      rw [hfound] at h
      cases hfields : memory.fieldsOf source type with
      | error fault =>
          simp only [hfields, filters_modelFields] at h
          exact Or.inl h
      | ok fields =>
          simp only [hfields, filters_modelFields, List.mem_append, List.mem_singleton] at h
          exact h.imp_right fun hnew => ⟨_, fields, rfl, rfl, hnew⟩

/-! ### No look-up changes the answers of a source that does not change -/

variable {exclude : List String}

theorem alike_hasType (hsteady : source.Steady) (type : TypeName) (memory : Memory) :
    Memory.Alike source exclude ((hasType source type).run memory).2 memory := by
  rw [hasType_run]
  by_cases h : (memory.cache.fields? type).isSome
  · simp only [h, if_true]
    exact Memory.Alike.refl memory
  · simp only [h]
    exact Memory.alike_asked hsteady memory _

theorem alike_modelFields (hsteady : source.Steady) (type : TypeName) (memory : Memory) :
    Memory.Alike source exclude ((modelFields source type).run memory).2 memory := by
  rw [modelFields_run]
  cases hnew : memory.cache.fields? type with
  | some fields => exact Memory.Alike.refl memory
  | none =>
      have hasked : Memory.Alike source exclude
          { memory with asked := memory.asked ++ [type] } memory :=
        Memory.alike_asked hsteady memory _
      simp only
      split
      · rename_i fields hdescribed
        rw [← hasked.described type] at hdescribed
        exact (Memory.alike_entered { memory with asked := memory.asked ++ [type] } hnew
          hdescribed).trans hasked
      · exact hasked

theorem alike_typeBelow (hsteady : source.Steady) (type : TypeName) (field : String)
    (memory : Memory) :
    Memory.Alike source exclude ((typeBelow source type field).run memory).2 memory := by
  rw [typeBelow_run]
  exact alike_modelFields hsteady type memory

theorem alike_fieldFilter (hsteady : source.Steady) (type : TypeName) (memory : Memory) :
    Memory.Alike source exclude ((fieldFilter source type exclude).run memory).2 memory := by
  rw [fieldFilter_run]
  cases memory.filter? { type := type.key, exclude } with
  | some issued => exact Memory.Alike.refl memory
  | none =>
      have hlooked : Memory.Alike source exclude _ memory :=
        alike_modelFields hsteady type memory
      simp only
      split
      · exact hlooked
      · rename_i fields hfields
        rw [← hlooked.fieldsOf type] at hfields
        exact (Memory.alike_issued hfields).trans hlooked

end Registry

end QueryProjection
