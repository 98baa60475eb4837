import QueryProjection.Proofs.Merging
import QueryProjection.Proofs.Registry.Requests

/-!
# What registries learn from their sources

A cache is written to by every registry that shares it, and a source may say what it likes,
and something else the next time, or fail.  Still a request only ever adds to the cache, adds
nothing but what the source has just said, and asks about nothing that is there already.

A `Lesson` is what one step leaves behind: a longer list of questions, a longer cache, each new
entry with the question that it answers, and a failure if one of the answers was one.  It is
handed on from step to step, so every request is one (`lessons`).
-/

namespace QueryProjection

theorem eq_of_getElem?_concat {α : Type} {items : List α} {last item : α} {i : Nat}
    (hi : items.length ≤ i) (h : (items ++ [last])[i]? = some item) :
    i = items.length ∧ item = last := by
  have hlt := (List.getElem?_eq_some_iff.mp h).1
  rw [List.length_append, List.length_singleton] at hlt
  obtain rfl : i = items.length := by omega
  rw [List.getElem?_append_right (Nat.le_refl _), Nat.sub_self] at h
  cases h
  exact ⟨rfl, rfl⟩

theorem getElem?_eq_of_grown {α : Type} {items more : List α} (h : items <+: more) {i : Nat}
    (hi : i < items.length) : more[i]? = items[i]? := by
  obtain ⟨rest, rfl⟩ := h
  exact List.getElem?_append_left hi

/-- A type that is new to a cache is entered at its end. -/
theorem FieldCache.enter_of_new {cache : FieldCache} {type : TypeName}
    (hnew : cache.fields? type = none) (fields : ModelFields) :
    cache.enter type fields = cache ++ [(type.key, (type, fields))] := by
  have hnone : OrderedMap.get? cache type.key = none := Option.map_eq_none_iff.mp hnew
  rw [enter, OrderedMap.insert_of_not_mem ((OrderedMap.get?_eq_none_iff cache type.key).mp hnone),
    hnone]
  rfl

/-- What a registry has learnt between two memories: questions were put after those before, and
each entry that was added is the answer to one of them. -/
structure Learnt (source : Source) (before after : Memory) : Prop where
  asked : before.asked <+: after.asked
  cache : ∃ added, after.cache = before.cache ++ added ∧ ∀ entry ∈ added, ∃ moment,
    before.asked.length ≤ moment ∧ after.asked[moment]? = some entry.2.1 ∧
      entry.1 = entry.2.1.key ∧ source.answer moment entry.1 = .ok (some entry.2.2)

namespace Learnt

variable {source : Source} {first second third : Memory}

theorem refl (memory : Memory) : Learnt source memory memory :=
  ⟨List.prefix_rfl, [], (List.append_nil _).symm, fun _ h => nomatch h⟩

theorem length_le (h : Learnt source first second) :
    first.asked.length ≤ second.asked.length :=
  h.asked.length_le

theorem trans (h : Learnt source first second) (h' : Learnt source second third) :
    Learnt source first third := by
  obtain ⟨added, hcache, hadded⟩ := h.cache
  obtain ⟨added', hcache', hadded'⟩ := h'.cache
  refine ⟨h.asked.trans h'.asked, added ++ added', ?_, fun entry hentry => ?_⟩
  · rw [hcache', hcache, List.append_assoc]
  · rcases List.mem_append.mp hentry with hold | hnew
    · obtain ⟨moment, hmoment, hasked, hkey⟩ := hadded entry hold
      have hlt := (List.getElem?_eq_some_iff.mp hasked).1
      exact ⟨moment, hmoment, (getElem?_eq_of_grown h'.asked hlt).trans hasked, hkey⟩
    · obtain ⟨moment, hmoment, hasked, hkey⟩ := hadded' entry hnew
      exact ⟨moment, Nat.le_trans h.length_le hmoment, hasked, hkey⟩

theorem prefix_cache (h : Learnt source first second) : first.cache <+: second.cache := by
  obtain ⟨added, hcache, -⟩ := h.cache
  exact ⟨added, hcache.symm⟩

/-- What is found in the cache was there before, or is what the source has said since. -/
theorem get?_cache (h : Learnt source first second) {type : Key} {found : TypeName × ModelFields}
    (hfound : OrderedMap.get? second.cache type = some found) :
    OrderedMap.get? first.cache type = some found ∨
      ∃ moment, source.answer moment type = .ok (some found.2) := by
  obtain ⟨added, hcache, hadded⟩ := h.cache
  rw [hcache, OrderedMap.get?_append, Option.or_eq_some_iff] at hfound
  rcases hfound with hold | ⟨-, hnew⟩
  · exact Or.inl hold
  · obtain ⟨moment, -, -, -, hanswer⟩ := hadded _ (OrderedMap.mem_of_get? hnew)
    exact Or.inr ⟨moment, hanswer⟩

theorem askedOne (memory : Memory) (type : TypeName) :
    Learnt source memory { memory with asked := memory.asked ++ [type] } :=
  ⟨List.prefix_append _ _, [], (List.append_nil _).symm, fun _ h => nomatch h⟩

/-- An answer about a type that is new is kept at the end of the cache. -/
theorem kept {memory : Memory} {type : TypeName} {fields : ModelFields}
    (hnew : memory.cache.fields? type = none)
    (hanswer : source.answer memory.asked.length type.key = .ok (some fields)) :
    Learnt source memory
      { memory with
        asked := memory.asked ++ [type], cache := memory.cache.enter type fields } := by
  refine ⟨List.prefix_append _ _, [(type.key, (type, fields))], FieldCache.enter_of_new hnew fields,
    fun entry hentry => ?_⟩
  rw [List.mem_singleton] at hentry
  subst hentry
  exact ⟨memory.asked.length, Nat.le_refl _, by simp, rfl, hanswer⟩

end Learnt

/-! ### Each step is a lesson -/

/-- What a step leaves behind.  If the source fails, the step fails with it and ends there; if it
fails because a type is unknown, then the source has just said so. -/
structure Lesson (source : Source) {α : Type} (memory : Memory) (outcome : Outcome α) : Prop where
  learnt : Learnt source memory outcome.memory
  raised : ∀ moment type fault, memory.asked.length ≤ moment →
    outcome.memory.asked[moment]? = some type →
    source.answer moment type.key = .error fault →
    outcome.result = .error fault ∧ moment + 1 = outcome.memory.asked.length ∧
      outcome.memory.cache.fields? type = none
  unknown : ∀ type, outcome.result = .error (.unknownType type) → ∃ moment asked,
    memory.asked.length ≤ moment ∧ outcome.memory.asked[moment]? = some asked ∧
      (source.answer moment asked.key = .error (.unknownType type) ∨
        asked = type ∧ moment + 1 = outcome.memory.asked.length ∧
          source.answer moment type.key = .ok none ∧
          outcome.memory.cache.fields? type = none)

namespace Lesson

variable {source : Source} {α β : Type} {memory : Memory}

theorem still {outcome : Outcome α} (hmemory : outcome.memory = memory)
    (hresult : ∀ type, outcome.result ≠ .error (.unknownType type)) :
    Lesson source memory outcome where
  learnt := by
    rw [hmemory]
    exact Learnt.refl memory
  raised := by
    intro moment type fault hmoment hasked _
    rw [hmemory] at hasked
    exact absurd (List.getElem?_eq_some_iff.mp hasked).1 (Nat.not_lt.mpr hmoment)
  unknown := fun type h => absurd h (hresult type)

/-- A failure is the same lesson whatever was to come of the step. -/
theorem of_error {outcome : Outcome α} {outcome' : Outcome β} {fault : Fault}
    (h : Lesson source memory outcome) (hresult : outcome.result = .error fault)
    (hresult' : outcome'.result = .error fault) (hmemory : outcome'.memory = outcome.memory) :
    Lesson source memory outcome' := by
  refine ⟨hmemory ▸ h.learnt, ?_, ?_⟩
  · intro moment type found hmoment hasked hanswer
    rw [hmemory] at hasked ⊢
    obtain ⟨hfailed, hlast, hnew⟩ := h.raised moment type found hmoment hasked hanswer
    rw [hresult, Except.error.injEq] at hfailed
    exact ⟨hfailed ▸ hresult', hlast, hnew⟩
  · intro type htype
    rw [hresult', Except.error.injEq] at htype
    rw [hmemory]
    exact h.unknown type (htype ▸ hresult)

theorem step {first : Compile α} {second : α → Compile β}
    (hfirst : Lesson source memory (first memory))
    (hsecond : ∀ value, (first memory).result = .ok value →
      Lesson source (first memory).memory (second value (first memory).memory)) :
    Lesson source memory ((first >>= second) memory) := by
  cases hr : (first memory).result with
  | error fault =>
      rw [Compile.bind_of_error hr]
      exact hfirst.of_error hr rfl rfl
  | ok value =>
      have hthen := hsecond value hr
      rw [Compile.bind_of_ok hr]
      refine ⟨hfirst.learnt.trans hthen.learnt, ?_, ?_⟩
      · intro moment type fault hmoment hasked hanswer
        by_cases hlt : moment < (first memory).memory.asked.length
        · -- an earlier failure would have ended the first step
          simp only [getElem?_eq_of_grown hthen.learnt.asked hlt] at hasked
          have hfailed := (hfirst.raised moment type fault hmoment hasked hanswer).1
          rw [hr] at hfailed
          cases hfailed
        · exact hthen.raised moment type fault (Nat.not_lt.mp hlt) hasked hanswer
      · intro type htype
        obtain ⟨moment, asked, hmoment, hrest⟩ := hthen.unknown type htype
        exact ⟨moment, asked, Nat.le_trans hfirst.learnt.length_le hmoment, hrest⟩

theorem hasType (type : TypeName) :
    Lesson source memory (Compile.ofLookup (Registry.hasType source type) memory) := by
  simp only [Compile.ofLookup_apply, Registry.hasType_run, Memory.described]
  cases hnew : memory.cache.fields? type with
  | some fields => exact still rfl fun _ h => by cases h
  | none =>
      refine ⟨Learnt.askedOne memory type, ?_, ?_⟩
      · intro moment asked fault hmoment hasked hanswer
        obtain ⟨rfl, rfl⟩ := eq_of_getElem?_concat hmoment hasked
        simp only [hanswer]
        exact ⟨rfl, by simp, hnew⟩
      · intro unknown hunknown
        refine ⟨memory.asked.length, type, Nat.le_refl _, by simp, Or.inl ?_⟩
        cases hanswer : source.answer memory.asked.length type.key with
        | ok answer => simp only [hanswer, Except.map, reduceCtorEq] at hunknown
        | error fault =>
            simp only [hanswer, Except.map, Except.error.injEq] at hunknown
            rw [hunknown]

theorem modelFields (type : TypeName) :
    Lesson source memory (Compile.ofLookup (Registry.modelFields source type) memory) := by
  simp only [Compile.ofLookup_apply, Registry.modelFields_run, Memory.fieldsOf, Memory.described]
  cases hnew : memory.cache.fields? type with
  | some fields => exact still rfl fun _ h => by cases h
  | none =>
      -- one question was put, after those before; the cases are the answers to it
      have hasked : (memory.asked ++ [type])[memory.asked.length]? = some type := by simp
      have hlength : memory.asked.length + 1 = (memory.asked ++ [type]).length := by simp
      cases hanswer : source.answer memory.asked.length type.key with
      | error fault =>
          refine ⟨Learnt.askedOne memory type, ?_, ?_⟩
          · intro moment other found hmoment hother hfound
            obtain ⟨rfl, rfl⟩ := eq_of_getElem?_concat hmoment hother
            rw [hanswer] at hfound
            cases hfound
            exact ⟨rfl, hlength, hnew⟩
          · intro unknown hunknown
            cases hunknown
            exact ⟨_, type, Nat.le_refl _, hasked, Or.inl hanswer⟩
      | ok answer =>
          cases answer with
          | none =>
              refine ⟨Learnt.askedOne memory type, ?_, ?_⟩
              · intro moment other found hmoment hother hfound
                obtain ⟨rfl, rfl⟩ := eq_of_getElem?_concat hmoment hother
                rw [hanswer] at hfound
                cases hfound
              · intro unknown hunknown
                cases hunknown
                exact ⟨_, type, Nat.le_refl _, hasked, Or.inr ⟨rfl, hlength, hanswer, hnew⟩⟩
          | some fields =>
              refine ⟨Learnt.kept hnew hanswer, ?_, fun _ h => by cases h⟩
              intro moment other found hmoment hother hfound
              obtain ⟨rfl, rfl⟩ := eq_of_getElem?_concat hmoment hother
              rw [hanswer] at hfound
              cases hfound

theorem fieldFilter (type : TypeName) (exclude : List String) :
    Lesson source memory (Compile.ofLookup (Registry.fieldFilter source type exclude) memory) := by
  have hlooked : Lesson source memory
      (Compile.ofLookup (Registry.modelFields source type) memory) := modelFields type
  rw [Compile.ofLookup_apply, Registry.modelFields_run_fst] at hlooked
  rw [Compile.ofLookup_apply, Registry.fieldFilter_run]
  cases memory.filter? { type := type.key, exclude } with
  | some issued => exact still rfl fun _ h => nomatch h
  | none =>
      cases hfields : memory.fieldsOf source type with
      | error fault =>
          exact hlooked.of_error hfields rfl rfl
      | ok fields =>
          refine ⟨⟨hlooked.learnt.asked, hlooked.learnt.cache⟩, ?_, fun _ h => nomatch h⟩
          intro moment other fault hmoment hother hanswer
          have hfailed := (hlooked.raised moment other fault hmoment hother hanswer).1
          rw [hfields] at hfailed
          cases hfailed

end Lesson

def lessons (source : Source) : Law where
  holds := Lesson source
  still := Lesson.still
  step := Lesson.step

theorem lookups_lessons (source : Source) : (lessons source).Lookups source where
  hasType type _ := Lesson.hasType type
  modelFields type _ := Lesson.modelFields type
  fieldFilter type exclude _ := Lesson.fieldFilter type exclude

end QueryProjection
