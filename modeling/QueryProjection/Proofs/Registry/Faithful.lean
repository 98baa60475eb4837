import QueryProjection.Proofs.Registry.Learning
import QueryProjection.Proofs.Registry.Sessions

/-!
# Filters that may be used again

A registry hands out filters that it made for earlier look-ups.  Whether that is right depends
on three things, and each is an invariant of all look-ups.  A remembered filter leaves out the
names that it is remembered under (`Memory.Keyed`) and has the fields that the cache holds of its
type (`Memory.Matched`), whatever the source says.  And if the source does not change its mind,
then all that is remembered goes on telling the same of every type (`Memory.Faithful`).

What a faithful memory remembers cannot be told from its answers.  They are those of any other
memory that is faithful to the same view, up to the order in which a filter lists the names that
it leaves out, which no field ever notices (`Memory.Faithful.filterOf`).
-/

namespace QueryProjection

/-! ### Filters leave out what they are remembered under -/

def Memory.Keyed (memory : Memory) : Prop :=
  ∀ entry ∈ memory.filters, entry.2.filter.exclude = entry.1.exclude

theorem lookups_keyed (source : Source) :
    (Law.ofInvariant Memory.Keyed).Lookups source where
  hasType type memory h := by
    simpa only [Memory.Keyed, Compile.ofLookup_apply, Registry.filters_hasType type] using h
  modelFields type memory h := by
    simpa only [Memory.Keyed, Compile.ofLookup_apply, Registry.filters_modelFields type] using h
  fieldFilter type exclude memory h := by
    intro entry hentry
    rw [Compile.ofLookup_apply] at hentry
    rcases Registry.mem_filters_fieldFilter hentry with hold | ⟨serial, fields, -, -, rfl⟩
    · exact h entry hold
    · rfl

/-! ### Filters have the fields that are in the cache -/

def Memory.Matched (memory : Memory) : Prop :=
  ∀ entry ∈ memory.filters, ∃ first fields,
    OrderedMap.get? memory.cache entry.1.type = some (first, fields) ∧
      entry.2.filter.fields = some fields

theorem OrderedMap.get?_of_prefix {κ : Type w} {α : Type u} [DecidableEq κ]
    {first second : OrderedMap κ α} (h : first <+: second) {key : κ} {value : α}
    (hget : get? first key = some value) : get? second key = some value := by
  obtain ⟨added, rfl⟩ := h
  rw [get?_append, hget, Option.some_or]

/-- A cache may grow. -/
theorem Memory.Matched.grown {memory after : Memory} (h : memory.Matched)
    (hfilters : after.filters = memory.filters) (hcache : memory.cache <+: after.cache) :
    after.Matched := by
  intro entry hentry
  obtain ⟨first, fields, hget, hfields⟩ := h entry (hfilters ▸ hentry)
  exact ⟨first, fields, OrderedMap.get?_of_prefix hcache hget, hfields⟩

theorem Memory.described_of_get? {memory : Memory} {source : Source} {type : TypeName}
    {first : TypeName} {fields : ModelFields}
    (h : OrderedMap.get? memory.cache type.key = some (first, fields)) :
    memory.described source type = .ok (some fields) := by
  simp only [described, FieldCache.fields?, h, Option.map_some]

namespace Registry

variable {source : Source} {memory : Memory} {type : TypeName} {fields : ModelFields}

/-- Fields that are looked up are in the cache afterwards. -/
theorem fields?_modelFields (h : memory.fieldsOf source type = .ok fields) :
    ((modelFields source type).run memory).2.cache.fields? type = some fields := by
  rw [Memory.fieldsOf_eq_ok] at h
  rw [modelFields_run]
  cases hnew : memory.cache.fields? type with
  | some found =>
      rw [Memory.described, hnew] at h
      cases h
      exact hnew
  | none =>
      simp only [h]
      rw [Memory.fields?_enter, if_pos rfl]

end Registry

theorem lookups_matched (source : Source) :
    (Law.ofInvariant Memory.Matched).Lookups source where
  hasType type memory h :=
    h.grown (Registry.filters_hasType type memory) (Lesson.hasType type).learnt.prefix_cache
  modelFields type memory h :=
    h.grown (Registry.filters_modelFields type memory) (Lesson.modelFields type).learnt.prefix_cache
  fieldFilter type exclude memory h := by
    intro entry hentry
    rw [Compile.ofLookup_apply] at hentry
    have hgrows : memory.cache <+:
        ((Registry.fieldFilter source type exclude).run memory).2.cache :=
      (Lesson.fieldFilter type exclude).learnt.prefix_cache
    rcases Registry.mem_filters_fieldFilter hentry with
      hold | ⟨serial, fields, hfields, hcache, rfl⟩
    · obtain ⟨first, fields, hget, hsame⟩ := h entry hold
      exact ⟨first, fields, OrderedMap.get?_of_prefix hgrows hget, hsame⟩
    · -- the new filter is made of the fields that its look-up leaves in the cache
      have hknown := Registry.fields?_modelFields hfields
      rw [← hcache] at hknown
      obtain ⟨⟨first, found⟩, hget, rfl⟩ := Option.map_eq_some_iff.mp hknown
      exact ⟨first, found, hget, rfl⟩

/-! ### What is remembered in a session -/

namespace Session

variable {session : Session} {id : String} {registry : RegistryState}

theorem Arises.keyed {sort : Session → SessionStep → Prop} (h : Arises sort session)
    (hregistry : OrderedMap.get? session.registries id = some registry) :
    (session.memoryOf registry).Keyed :=
  h.registries (fun _ filters => ∀ entry ∈ filters, entry.2.filter.exclude = entry.1.exclude)
    (fun _ _ hentry => nomatch hentry)
    (fun source _ _ hanswer memory hkeyed => (lookups_keyed source).answer hanswer memory hkeyed)
    (fun _ _ _ _ _ hkeyed => hkeyed) id registry hregistry

/-- A step that only adds to caches leaves all that they hold. -/
theorem prefix_cacheAt_perform {step : SessionStep} (hadds : addsOnly session step) (cache : Nat) :
    session.cacheAt cache <+: (session.perform step).2.cacheAt cache := by
  rcases cacheAt_perform session step cache with hsame | ⟨name, type, fields, rfl, rfl, hentered⟩ |
    ⟨id, request, registry, compile, rfl, -, hanswer, rfl, hkept⟩
  · exact hsame.symm ▸ List.prefix_rfl
  · rw [hentered, FieldCache.enter_of_new (hadds name type fields rfl)]
    exact List.prefix_append _ _
  · rw [hkept]
    exact ((lookups_lessons registry.source).answer hanswer (session.memoryOf registry)).learnt
      |>.prefix_cache

theorem Arises.matched (h : Arises addsOnly session)
    (hregistry : OrderedMap.get? session.registries id = some registry) :
    (session.memoryOf registry).Matched :=
  h.registries (fun cache filters => ∀ entry ∈ filters, ∃ first fields,
      OrderedMap.get? cache entry.1.type = some (first, fields) ∧
        entry.2.filter.fields = some fields)
    (fun _ _ hentry => nomatch hentry)
    (fun source _ _ hanswer memory hmatched =>
      (lookups_matched source).answer hanswer memory hmatched)
    (fun _ _ cache _ hadds hmatched entry hentry =>
      let ⟨first, fields, hget, hfields⟩ := hmatched entry hentry
      ⟨first, fields, OrderedMap.get?_of_prefix (prefix_cacheAt_perform hadds cache) hget, hfields⟩)
    id registry hregistry

end Session

/-! ### Memories that go on telling the same -/

theorem FieldFilter.similar_of_names {filter filter' : FieldFilter}
    (hfields : filter.fields = filter'.fields)
    (hnames : ∀ name, name ∈ filter.exclude ↔ name ∈ filter'.exclude) :
    filter.Similar filter' := by
  intro name
  have hskips : filter.skips name = filter'.skips name := by
    simp only [skips, List.contains_eq_mem, hnames name]
  simp only [classify, hskips, hfields]

/-- A memory that tells of every type what a view says, and remembers filters of that view. -/
structure Memory.Faithful (source : Source)
    (view : TypeName → Except Fault (Option ModelFields)) (memory : Memory) : Prop where
  described : ∀ type, memory.described source type = view type
  keyed : memory.Keyed
  filters : ∀ entry ∈ memory.filters, ∀ type : TypeName, type.key = entry.1.type →
    ∃ fields, view type = .ok (some fields) ∧ entry.2.filter.fields = some fields

namespace Memory.Faithful

variable {source : Source} {view : TypeName → Except Fault (Option ModelFields)}
  {memory memory' : Memory}

/-- Every memory is faithful to what it tells itself. -/
theorem of_matched (hkeyed : memory.Keyed) (hmatched : memory.Matched) :
    memory.Faithful source (memory.described source) where
  described _ := rfl
  keyed := hkeyed
  filters entry hentry type htype := by
    obtain ⟨first, fields, hget, hfields⟩ := hmatched entry hentry
    exact ⟨fields, described_of_get? (htype ▸ hget), hfields⟩

theorem of_unused (hdescribed : ∀ type, memory.described source type = view type)
    (hfilters : memory.filters = []) : memory.Faithful source view := by
  refine ⟨hdescribed, fun entry hentry => ?_, fun entry hentry => ?_⟩
  · rw [hfilters] at hentry
    cases hentry
  · rw [hfilters] at hentry
    cases hentry

theorem fieldsOf_eq (h : memory.Faithful source view) (h' : memory'.Faithful source view)
    (type : TypeName) : memory.fieldsOf source type = memory'.fieldsOf source type := by
  simp only [Memory.fieldsOf, h.described, h'.described]

/-- The filter that would be given has the fields that the view knows and leaves out the names
that it is asked to. -/
theorem filterOf (h : memory.Faithful source view) (type : TypeName) (exclude : List String) :
    (∃ filter fields, memory.filterOf source type exclude = .ok filter ∧
        view type = .ok (some fields) ∧ filter.fields = some fields ∧
        ∀ name, name ∈ filter.exclude ↔ name ∈ exclude) ∨
      ∃ fault, memory.filterOf source type exclude = .error fault ∧
        memory.fieldsOf source type = .error fault := by
  unfold Memory.filterOf
  cases hfound : memory.filter? { type := type.key, exclude } with
  | some issued =>
      -- it was made for a list of the same names, perhaps in another order
      obtain ⟨known, hentry, htype, hnames⟩ := exists_of_filter? hfound
      obtain ⟨fields, hview, hfields⟩ := h.filters (known, issued) hentry type htype.symm
      refine Or.inl ⟨_, fields, rfl, hview, hfields, fun name => ?_⟩
      rw [h.keyed (known, issued) hentry]
      exact hnames name
  | none =>
      cases hfields : memory.fieldsOf source type with
      | error fault => exact Or.inr ⟨fault, rfl, rfl⟩
      | ok fields =>
          refine Or.inl ⟨_, fields, rfl, ?_, rfl, fun _ => Iff.rfl⟩
          rw [← h.described]
          exact Memory.fieldsOf_eq_ok.mp hfields

end Memory.Faithful

theorem lookups_faithful {source : Source} (hsteady : source.Steady)
    (view : TypeName → Except Fault (Option ModelFields)) :
    (Law.ofInvariant (Memory.Faithful source view)).Lookups source where
  hasType type memory h :=
    have halike : Memory.Alike source [] _ memory := Registry.alike_hasType hsteady type memory
    ⟨fun other => (halike.described other).trans (h.described other),
      (lookups_keyed source).hasType type memory h.keyed, fun entry hentry =>
        h.filters entry (Registry.filters_hasType type memory ▸ hentry)⟩
  modelFields type memory h :=
    have halike : Memory.Alike source [] _ memory := Registry.alike_modelFields hsteady type memory
    ⟨fun other => (halike.described other).trans (h.described other),
      (lookups_keyed source).modelFields type memory h.keyed, fun entry hentry =>
        h.filters entry (Registry.filters_modelFields type memory ▸ hentry)⟩
  fieldFilter type exclude memory h := by
    refine ⟨fun other => ((Registry.alike_fieldFilter hsteady type memory).described
        other).trans (h.described other),
      (lookups_keyed source).fieldFilter type exclude memory h.keyed, fun entry hentry => ?_⟩
    rcases Registry.mem_filters_fieldFilter hentry with hold | ⟨serial, fields, hfields, -, rfl⟩
    · exact h.filters entry hold
    · intro other hother
      refine ⟨fields, ?_, rfl⟩
      rw [← h.described, Memory.described_of_key hother]
      exact Memory.fieldsOf_eq_ok.mp hfields

/-- Requests to a registry leave its memory faithful. -/
theorem Served.faithful {source : Source} (hsteady : source.Steady)
    {view : TypeName → Except Fault (Option ModelFields)} {start memory : Memory}
    (h : Served source start memory) (hstart : start.Faithful source view) :
    memory.Faithful source view := by
  induction h with
  | start => exact hstart
  | request _ request hanswer ih => exact (lookups_faithful hsteady view).answer hanswer _ ih

end QueryProjection
