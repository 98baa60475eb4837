import QueryProjection.Proofs.Registry.Faithful

/-!
# What a registry may have come to remember

A registry is opened with a cache, answers requests, and may share its cache with others, who
then remember types in it that were not known before.  `Reached` are the memories that such a
history leads to.  All of them are `Consistent`: a filter that is remembered for a type has
the very fields that are remembered of the type, so that whoever filters by the one and
descends by the other is told the same model twice.

Look-ups keep a memory consistent whether they succeed or fail (`lookups_consistent`), and so do
requests, which change a memory through look-ups alone.
-/

namespace QueryProjection

def ModelFields.Related (fields : ModelFields) : Prop :=
  ∀ name target, fields.related? name = some target → ∃ type, target = .type type

def Source.Related (source : Source) : Prop :=
  ∀ moment type fields, source.answer moment type = .ok (some fields) → fields.Related

theorem ModelFields.related_of_relations {fields : ModelFields}
    (h : ∀ entry ∈ fields.relations, ∃ type, entry.2 = .type type) : fields.Related :=
  fun _ _ hfound => h _ (OrderedMap.mem_of_get? hfound)

theorem Source.related_ofTable {table : OrderedMap String ModelFields}
    (h : ∀ entry ∈ table, entry.2.Related) : (Source.ofTable table).Related := by
  intro moment type fields hanswer
  obtain ⟨name, -, hfound⟩ := Source.exists_of_ofLookup hanswer
  exact h _ (OrderedMap.mem_of_get? hfound)

inductive Reached (source : Source) : Memory → Prop where
  | opened (cache : FieldCache) (nextSerial : Nat)
      (hrelated : ∀ entry ∈ cache, entry.2.2.Related) :
      Reached source { cache, filters := [], asked := [], nextSerial }
  | served {memory : Memory} (h : Reached source memory) (request : Request)
      {compile : Compile Answer} (hanswer : Session.answer source request = .ok compile) :
      Reached source (compile memory).memory
  /-- another registry with the same cache, or its owner, enters a type -/
  | entered {memory : Memory} (h : Reached source memory) (type : TypeName)
      (fields : ModelFields) (hnew : memory.cache.fields? type = none)
      (hrelated : fields.Related) :
      Reached source { memory with cache := memory.cache.enter type fields }
  /-- another registry makes filters -/
  | counted {memory : Memory} (h : Reached source memory) (nextSerial : Nat) :
      Reached source { memory with nextSerial }

namespace Memory

def Related (memory : Memory) : Prop :=
  ∀ type first fields, OrderedMap.get? memory.cache type = some (first, fields) → fields.Related

/-- Filters have the fields that are remembered, and relations lead to types. -/
structure Consistent (memory : Memory) : Prop where
  filters : memory.Matched
  related : memory.Related

variable {memory : Memory}

theorem Related.entered (h : memory.Related) {type : TypeName} {fields : ModelFields}
    (hrelated : fields.Related) :
    Memory.Related { memory with cache := memory.cache.enter type fields } := by
  intro other first found hfound
  rw [FieldCache.enter] at hfound
  rcases OrderedMap.get?_insert_eq_some hfound with ⟨-, hnew⟩ | hold
  · cases hnew
    exact hrelated
  · exact h other first found hold

theorem Related.learnt {source : Source} {after : Memory} (h : memory.Related)
    (hrelated : source.Related) (hlearnt : Learnt source memory after) : after.Related := by
  intro type first fields hfound
  rcases hlearnt.get?_cache hfound with hold | ⟨moment, hanswer⟩
  · exact h type first fields hold
  · exact hrelated moment type fields hanswer

theorem Consistent.entered (h : memory.Consistent) {type : TypeName} {fields : ModelFields}
    (hnew : memory.cache.fields? type = none) (hrelated : fields.Related) :
    Memory.Consistent { memory with cache := memory.cache.enter type fields } := by
  refine ⟨h.filters.grown rfl ?_, h.related.entered hrelated⟩
  rw [FieldCache.enter_of_new hnew]
  exact List.prefix_append _ _

end Memory

/-! ### Look-ups -/

theorem lookups_related {source : Source} (hrelated : source.Related) :
    (Law.ofInvariant Memory.Related).Lookups source where
  hasType type _ h := h.learnt hrelated (Lesson.hasType type).learnt
  modelFields type _ h := h.learnt hrelated (Lesson.modelFields type).learnt
  fieldFilter type _ _ h := h.learnt hrelated (Lesson.fieldFilter type _).learnt

theorem lookups_consistent {source : Source} (hrelated : source.Related) :
    (Law.ofInvariant Memory.Consistent).Lookups source where
  hasType type memory h := ⟨(lookups_matched source).hasType type memory h.filters,
    (lookups_related hrelated).hasType type memory h.related⟩
  modelFields type memory h := ⟨(lookups_matched source).modelFields type memory h.filters,
    (lookups_related hrelated).modelFields type memory h.related⟩
  fieldFilter type exclude memory h :=
    ⟨(lookups_matched source).fieldFilter type exclude memory h.filters,
      (lookups_related hrelated).fieldFilter type exclude memory h.related⟩

/-! ### Requests -/

/-- Whatever its history, what a registry remembers is consistent. -/
theorem Reached.consistent {source : Source} (hrelated : source.Related) {memory : Memory}
    (h : Reached source memory) : memory.Consistent := by
  induction h with
  | opened cache nextSerial hcache =>
      exact ⟨fun _ hentry => (nomatch hentry),
        fun _ _ _ hfields => hcache _ (OrderedMap.mem_of_get? hfields)⟩
  | served _ request hanswer ih => exact (lookups_consistent hrelated).answer hanswer _ ih
  | entered _ type fields hnew hfields ih => exact ih.entered hnew hfields
  | counted _ nextSerial ih => exact ⟨ih.filters, ih.related⟩

end QueryProjection
