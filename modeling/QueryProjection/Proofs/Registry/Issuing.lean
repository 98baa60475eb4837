import Mathlib.Data.List.Nodup
import QueryProjection.Proofs.Registry.Faithful

/-!
# The filters that a request makes

Where a registry does not remember a filter it makes one and numbers it, and nothing else ever
happens to the filters.  So between two memories there is a list of new ones (`Issues`): they are
numbered one after the other, each is for a type and for names that were needed, and each has the
fields that the cache holds of its type by then.  Every request issues filters in this sense, a
compilation as well as a look-up, and whether it succeeds or fails (`issues_answer`).
-/

namespace QueryProjection

/-- A filter that is remembered under a key was made for it: for a type that is in the cache, with
the fields that it has there, and to leave out the names of the key. -/
def FilterKey.Describes (key : FilterKey) (cache : FieldCache) (filter : FieldFilter) : Prop :=
  ∃ first fields, OrderedMap.get? cache key.type = some (first, fields) ∧
    filter = { fields := some fields, exclude := key.exclude }

/-- From one memory to another the cache has grown, and filters that were needed have been made. -/
structure Issues (needed : TypeName → List String → Prop) (before after : Memory) : Prop where
  cache : before.cache <+: after.cache
  made : ∃ added, after.filters = before.filters ++ added ∧
    after.nextSerial = before.nextSerial + added.length ∧
    added.map (fun entry => entry.2.serial) = List.range' before.nextSerial added.length ∧
    ∀ entry ∈ added, entry.1.Describes after.cache entry.2.filter ∧
      ∃ type exclude, needed type exclude ∧ entry.1 = { type := type.key, exclude }

/-- What is to be said of a filter that was made between two memories. -/
structure NewFilter (needed : TypeName → List String → Prop) (before after : Memory)
    (entry : FilterKey × IssuedFilter) : Prop where
  fresh : before.nextSerial ≤ entry.2.serial
  numbered : entry.2.serial < after.nextSerial
  described : entry.1.Describes after.cache entry.2.filter
  needed : ∃ type exclude, needed type exclude ∧ entry.1 = { type := type.key, exclude }

theorem FilterKey.Describes.grown {key : FilterKey} {cache cache' : FieldCache}
    {filter : FieldFilter} (h : key.Describes cache filter) (hcache : cache <+: cache') :
    key.Describes cache' filter := by
  obtain ⟨first, fields, hfields, hfilter⟩ := h
  exact ⟨first, fields, OrderedMap.get?_of_prefix hcache hfields, hfilter⟩

namespace Issues

variable {needed : TypeName → List String → Prop} {first second third : Memory}

/-- Nothing is made. -/
theorem none (hcache : first.cache <+: second.cache) (hfilters : second.filters = first.filters)
    (hserial : second.nextSerial = first.nextSerial) : Issues needed first second :=
  ⟨hcache, [], by rw [hfilters, List.append_nil], hserial, rfl, nofun⟩

theorem trans (h : Issues needed first second) (h' : Issues needed second third) :
    Issues needed first third := by
  obtain ⟨added, hfilters, hnext, hserials, hadded⟩ := h.made
  obtain ⟨added', hfilters', hnext', hserials', hadded'⟩ := h'.made
  refine ⟨h.cache.trans h'.cache, added ++ added', ?_, ?_, ?_, ?_⟩
  · rw [hfilters', hfilters, List.append_assoc]
  · rw [hnext', hnext, List.length_append, Nat.add_assoc]
  · rw [List.map_append, hserials, hserials', hnext, List.length_append, List.range'_append_1]
  · intro entry hentry
    rcases List.mem_append.mp hentry with hold | hnew
    · exact ⟨(hadded entry hold).1.grown h'.cache, (hadded entry hold).2⟩
    · exact hadded' entry hnew

theorem filters (h : Issues needed first second) : first.filters <+: second.filters := by
  obtain ⟨added, hfilters, -⟩ := h.made
  exact ⟨added, hfilters.symm⟩

theorem nextSerial (h : Issues needed first second) : first.nextSerial ≤ second.nextSerial := by
  obtain ⟨added, -, hnext, -⟩ := h.made
  omega

/-- Filters were there before, or are new. -/
theorem mem_filters (h : Issues needed first second) {entry : FilterKey × IssuedFilter}
    (hentry : entry ∈ second.filters) :
    entry ∈ first.filters ∨ NewFilter needed first second entry := by
  obtain ⟨added, hfilters, hnext, hserials, hadded⟩ := h.made
  rw [hfilters] at hentry
  rcases List.mem_append.mp hentry with hold | hnew
  · exact Or.inl hold
  · have hserial : entry.2.serial ∈ List.range' first.nextSerial added.length := by
      rw [← hserials]
      exact List.mem_map_of_mem hnew
    rw [List.mem_range'_1] at hserial
    exact Or.inr ⟨hserial.1, hnext ▸ hserial.2, (hadded entry hnew).1, (hadded entry hnew).2⟩

/-- New filters are told apart by their numbers. -/
theorem eq_of_serial (h : Issues needed first second) {entry entry' : FilterKey × IssuedFilter}
    (hentry : entry ∈ second.filters) (hentry' : entry' ∈ second.filters)
    (hnew : first.nextSerial ≤ entry.2.serial)
    (hold : ∀ known ∈ first.filters, known.2.serial < first.nextSerial)
    (heq : entry.2.serial = entry'.2.serial) : entry = entry' := by
  obtain ⟨added, hfilters, -, hserials, -⟩ := h.made
  have hadded : ∀ found ∈ second.filters, first.nextSerial ≤ found.2.serial → found ∈ added := by
    intro found hfound hserial
    rw [hfilters] at hfound
    rcases List.mem_append.mp hfound with hknown | hfound
    · exact absurd (hold found hknown) (Nat.not_lt.mpr hserial)
    · exact hfound
  have hnodup : (added.map fun entry => entry.2.serial).Nodup := by
    rw [hserials]
    exact List.nodup_range'
  exact List.inj_on_of_nodup_map hnodup (hadded entry hentry hnew)
    (hadded entry' hentry' (heq ▸ hnew)) heq

end Issues

/-! ### Look-ups and requests -/

def issuing (needed : TypeName → List String → Prop) : Law :=
  .ofRelation (Issues needed) (fun _ => .none List.prefix_rfl rfl rfl) Issues.trans

section Lookups

variable (source : Source) (needed : TypeName → List String → Prop)

theorem issues_modelFields (type : TypeName) (memory : Memory) :
    Issues needed memory ((Registry.modelFields source type).run memory).2 := by
  refine .none (Lesson.modelFields type).learnt.prefix_cache
    (Registry.filters_modelFields type memory) ?_
  rw [Registry.modelFields_run]
  simp only
  split
  · rfl
  · split <;> rfl

theorem describes_issuing : (issuing needed).Describes source where
  hasType type memory := by
    refine .none (Lesson.hasType type).learnt.prefix_cache
      (Registry.filters_hasType type memory) ?_
    rw [Compile.ofLookup_apply, Registry.hasType_run]
    simp only
    split <;> rfl
  modelFields := issues_modelFields source needed

/-- A filter is made if none is remembered, and its type is known. -/
theorem issues_fieldFilter {type : TypeName} {exclude : List String} (hneeded : needed type exclude)
    (memory : Memory) :
    Issues needed memory ((Registry.fieldFilter source type exclude).run memory).2 := by
  have hlooked := issues_modelFields source needed type memory
  rw [Registry.fieldFilter_run]
  cases memory.filter? { type := type.key, exclude } with
  | some issued => exact .none List.prefix_rfl rfl rfl
  | none =>
      cases hfields : memory.fieldsOf source type with
      | error fault => exact hlooked
      | ok fields =>
          -- looking the type up has put it in the cache, so that the new filter describes it
          refine hlooked.trans ⟨List.prefix_rfl, [_], rfl, rfl, rfl, fun entry hentry => ?_⟩
          rw [List.mem_singleton.mp hentry]
          obtain ⟨⟨first, found⟩, hfound, rfl⟩ :=
            Option.map_eq_some_iff.mp (Registry.fields?_modelFields hfields)
          exact ⟨⟨first, found, hfound, rfl⟩, type, exclude, hneeded, rfl⟩

end Lookups

/-- A request makes filters that it needs, and does nothing else to the filters of a registry. -/
theorem issues_answer {source : Source} {request : Request} {compile : Compile Answer}
    (hanswer : Session.answer source request = .ok compile) (memory : Memory) :
    Issues request.NeedsFilter memory (compile memory).memory :=
  (describes_issuing source request.NeedsFilter).answer
    (fun _ _ hneeded => issues_fieldFilter source request.NeedsFilter hneeded) hanswer memory

/-! ### What is found again -/

namespace Memory

variable {memory after : Memory}

/-- A key is as good as another one, if they say the same. -/
theorem filter?_congr {type type' : Key} {exclude exclude' : List String} (htype : type = type')
    (hnames : ∀ name, name ∈ exclude ↔ name ∈ exclude') :
    memory.filter? { type, exclude } = memory.filter? { type := type', exclude := exclude' } := by
  have hsame : ∀ known : FilterKey,
      known.same { type, exclude } = known.same { type := type', exclude := exclude' } := by
    intro known
    rw [Bool.eq_iff_iff]
    simp only [FilterKey.same, sameNames, htype, Bool.and_eq_true, List.all_eq_true,
      List.contains_iff_mem, hnames]
  simp only [filter?, hsame]

theorem filter?_of_prefix {key : FilterKey} {issued : IssuedFilter}
    (hfilters : memory.filters <+: after.filters) (h : memory.filter? key = some issued) :
    after.filter? key = some issued := by
  obtain ⟨added, hadded⟩ := hfilters
  rw [filter?] at h ⊢
  rw [← hadded, List.find?_append, Option.map_or, h, Option.some_or]

end Memory

namespace Registry

variable {source : Source} {type : TypeName} {exclude : List String} {memory : Memory}
  {issued : IssuedFilter}

/-- A filter that is given is remembered. -/
theorem filter?_of_fieldFilter (h : ((fieldFilter source type exclude).run memory).1 = .ok issued) :
    ((fieldFilter source type exclude).run memory).2.filter? { type := type.key, exclude } =
      some issued := by
  rw [fieldFilter_run] at h ⊢
  cases hfound : memory.filter? { type := type.key, exclude } with
  | some known =>
      rw [hfound] at h
      cases h
      exact hfound
  | none =>
      rw [hfound] at h
      cases hfields : memory.fieldsOf source type with
      | error fault =>
          simp only [hfields] at h
          cases h
      | ok fields =>
          simp only [hfields] at h ⊢
          cases h
          have hnone : ((modelFields source type).run memory).2.filter?
              { type := type.key, exclude } = none := by
            rw [Memory.filter?, filters_modelFields]
            exact hfound
          rw [Memory.filter?_issued, hnone, Option.none_or]
          simp only [FilterKey.same, Memory.sameNames_refl, beq_self_eq_true, Bool.and_self,
            if_true]

theorem fieldFilter_of_filter? (h : memory.filter? { type := type.key, exclude } = some issued) :
    (fieldFilter source type exclude).run memory = (.ok issued, memory) := by
  rw [fieldFilter_run, h]

end Registry

end QueryProjection
