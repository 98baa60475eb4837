import QueryProjection.Proofs.Merging
import QueryProjection.Session

/-!
# The sessions that steps lead to

Registries are opened, asked and amended one step at a time, and caches are shared by name.
`Arises` are the sessions that come of this, from the empty one and by steps of some sort.

What a step does is said once: to the caches in `cacheAt_perform`, to the registries in
`registry_perform`.  An invariant of what a registry remembers follows for all sessions that
arise, if a new registry has it, requests keep it, and so do the changes that others make to
the cache (`Arises.registries`).
-/

namespace QueryProjection

namespace Session

/-- The sessions to which steps of a sort lead. -/
inductive Arises (sort : Session → SessionStep → Prop) : Session → Prop where
  | start : Arises sort start
  | step {session : Session} (h : Arises sort session) (step : SessionStep)
      (hsort : sort session step) : Arises sort (session.perform step).2

def anyStep (_ : Session) (_ : SessionStep) : Prop := True

/-- Types are not entered in a cache by hand, unless they are new to it. -/
def addsOnly (session : Session) (step : SessionStep) : Prop :=
  ∀ name type fields, step = .putFields name type fields →
    (session.cacheAt (session.sharedCache name).2).fields? type = none

/-- All caches that are in use are there. -/
structure Sound (session : Session) : Prop where
  registries : ∀ id registry, OrderedMap.get? session.registries id = some registry →
    registry.cache < session.caches.length
  names : ∀ name cache, OrderedMap.get? session.cacheNames name = some cache →
    cache < session.caches.length

variable {session : Session}

/-! ### Caches -/

theorem cacheAt_newCache (session : Session) (cache : Nat) :
    session.newCache.1.cacheAt cache = session.cacheAt cache := by
  simp only [newCache, cacheAt]
  rcases Nat.lt_trichotomy cache session.caches.length with h | h | h
  · rw [List.getElem?_append_left h]
  · subst h
    simp
  · rw [List.getElem?_eq_none (by simp; omega), List.getElem?_eq_none (by omega)]

theorem cacheAt_sharedCache (session : Session) (name : String) (cache : Nat) :
    (session.sharedCache name).1.cacheAt cache = session.cacheAt cache := by
  unfold sharedCache
  split
  · rfl
  · exact cacheAt_newCache session cache

theorem registries_sharedCache (session : Session) (name : String) :
    (session.sharedCache name).1.registries = session.registries := by
  unfold sharedCache
  split <;> rfl

theorem cacheAt_set (session : Session) {changed : Nat} (entries : FieldCache) (cache : Nat) :
    { session with caches := session.caches.set changed entries }.cacheAt cache =
      if changed = cache ∧ cache < session.caches.length then entries
      else session.cacheAt cache := by
  simp only [cacheAt, List.getElem?_set]
  by_cases h : changed = cache
  · subst h
    by_cases hlt : changed < session.caches.length
    · simp [hlt]
    · simp [hlt]
  · simp [h]

theorem cacheAt_keep (session : Session) (id : String) (registry : RegistryState)
    (memory : Memory) (cache : Nat) :
    (session.keep id registry memory).cacheAt cache =
      if registry.cache = cache ∧ cache < session.caches.length then memory.cache
      else session.cacheAt cache :=
  cacheAt_set session memory.cache cache

theorem cacheAt_keep_self {id : String} {registry : RegistryState}
    (hcache : registry.cache < session.caches.length) (memory : Memory) :
    (session.keep id registry memory).cacheAt registry.cache = memory.cache := by
  simp only [cacheAt_keep, hcache, and_self, if_true]

/-- What is kept is remembered. -/
theorem memoryOf_keep {id : String} {registry : RegistryState}
    (hcache : registry.cache < session.caches.length) (memory : Memory) :
    (session.keep id registry memory).memoryOf
      { registry with filters := memory.filters, asked := memory.asked } = memory := by
  simp only [memoryOf, cacheAt_keep_self hcache]
  rfl

/-! ### Requests -/

theorem perform_request {id : String} {registry : RegistryState}
    (hregistry : OrderedMap.get? session.registries id = some registry) {request : Request}
    {compile : Compile Answer} (hanswer : answer registry.source request = .ok compile) :
    session.perform (.request id request) =
      ({ result := (compile (session.memoryOf registry)).result.mapError StepFault.compilation
         notices := (compile (session.memoryOf registry)).notices
         asked := (compile (session.memoryOf registry)).memory.asked.drop registry.asked.length },
       session.keep id registry (compile (session.memoryOf registry)).memory) := by
  simp only [perform, hregistry, hanswer]

theorem perform_refused {id : String} {registry : RegistryState}
    (hregistry : OrderedMap.get? session.registries id = some registry) {request : Request}
    {fault : OptionsFault} (hanswer : answer registry.source request = .error fault) :
    session.perform (.request id request) = (refused (.options fault), session) := by
  simp only [perform, hregistry, hanswer]

/-! ### What a step does to a cache -/

/-- What a step may do to a cache: nothing, or enter a type by hand, or keep what was learnt. -/
theorem cacheAt_perform (session : Session) (step : SessionStep) (cache : Nat) :
    (session.perform step).2.cacheAt cache = session.cacheAt cache ∨
      (∃ name type fields, step = .putFields name type fields ∧
        cache = (session.sharedCache name).2 ∧
        (session.perform step).2.cacheAt cache = (session.cacheAt cache).enter type fields) ∨
      ∃ id request registry compile, step = .request id request ∧
        OrderedMap.get? session.registries id = some registry ∧
        answer registry.source request = .ok compile ∧ cache = registry.cache ∧
        (session.perform step).2.cacheAt cache =
          (compile (session.memoryOf registry)).memory.cache := by
  cases step with
  | openRegistry id source name =>
      refine Or.inl ?_
      cases name with
      | none => exact cacheAt_newCache session cache
      | some name => exact cacheAt_sharedCache session name cache
  | putFields name type fields =>
      simp only [perform, cacheAt_set, cacheAt_sharedCache]
      split
      · rename_i h
        refine Or.inr (Or.inl ⟨name, type, fields, rfl, h.1.symm, ?_⟩)
        rw [h.1]
      · exact Or.inl rfl
  | listTypes name => exact Or.inl (cacheAt_sharedCache session name cache)
  | amendSource id type fields =>
      refine Or.inl ?_
      simp only [perform]
      split <;> rfl
  | request id request =>
      simp only [perform]
      cases hregistry : OrderedMap.get? session.registries id with
      | none => exact Or.inl rfl
      | some registry =>
          cases hanswer : answer registry.source request with
          | error fault => exact Or.inl (by simp only [hanswer])
          | ok compile =>
              simp only [hanswer, cacheAt_keep]
              split
              · rename_i h
                exact Or.inr (Or.inr ⟨id, request, registry, compile, rfl, hregistry, hanswer,
                  h.1.symm, rfl⟩)
              · exact Or.inl rfl

/-! ### Caches that are in use are there -/

theorem length_sharedCache (session : Session) (name : String) :
    session.caches.length ≤ (session.sharedCache name).1.caches.length := by
  unfold sharedCache
  split
  · exact Nat.le_refl _
  · simp [newCache]

theorem length_perform (session : Session) (step : SessionStep) :
    session.caches.length ≤ (session.perform step).2.caches.length := by
  cases step with
  | openRegistry id source name =>
      cases name with
      | none => simp [perform, newCache]
      | some name => exact length_sharedCache session name
  | putFields name type fields =>
      simp only [perform, List.length_set]
      exact length_sharedCache session name
  | listTypes name => exact length_sharedCache session name
  | amendSource id type fields =>
      simp only [perform]
      split <;> exact Nat.le_refl _
  | request id request =>
      simp only [perform]
      split
      · exact Nat.le_refl _
      · split
        · exact Nat.le_refl _
        · simp [keep]

theorem Sound.sharedCache (h : session.Sound) (name : String) :
    (session.sharedCache name).2 < (session.sharedCache name).1.caches.length := by
  unfold Session.sharedCache
  split
  · rename_i cache hcache
    exact h.names name cache hcache
  · simp [newCache]

theorem names_sharedCache (h : session.Sound) (name other : String) {cache : Nat}
    (hcache : OrderedMap.get? (session.sharedCache name).1.cacheNames other = some cache) :
    cache < (session.sharedCache name).1.caches.length := by
  unfold Session.sharedCache at hcache ⊢
  cases hname : OrderedMap.get? session.cacheNames name with
  | some found =>
      simp only [hname] at hcache ⊢
      exact h.names other cache hcache
  | none =>
      simp only [hname, newCache, List.length_append, List.length_singleton] at hcache ⊢
      by_cases heq : name = other
      · subst heq
        rw [OrderedMap.get?_insert_self] at hcache
        cases hcache
        omega
      · rw [OrderedMap.get?_insert_of_ne _ _ heq] at hcache
        have hlt := h.names other cache hcache
        omega

theorem Sound.names_perform (h : session.Sound) (step : SessionStep) (name : String) {cache : Nat}
    (hcache : OrderedMap.get? (session.perform step).2.cacheNames name = some cache) :
    cache < (session.perform step).2.caches.length := by
  cases step with
  | openRegistry id source shared =>
      cases shared with
      | none => exact Nat.lt_of_lt_of_le (h.names name cache hcache) (length_perform session _)
      | some shared => exact names_sharedCache h shared name hcache
  | putFields shared type fields =>
      simp only [perform, List.length_set] at hcache ⊢
      exact names_sharedCache h shared name hcache
  | listTypes shared => exact names_sharedCache h shared name hcache
  | amendSource id type fields =>
      refine Nat.lt_of_lt_of_le (h.names name cache ?_) (length_perform session _)
      simp only [perform] at hcache
      split at hcache <;> exact hcache
  | request id request =>
      refine Nat.lt_of_lt_of_le (h.names name cache ?_) (length_perform session _)
      simp only [perform] at hcache
      split at hcache
      · exact hcache
      · split at hcache <;> exact hcache

/-! ### Registries -/

/-- What a step may do to a registry: nothing, or open it, or amend its source, or keep what a
request leaves behind. -/
theorem registry_perform {step : SessionStep} {id : String} {after : RegistryState}
    (h : OrderedMap.get? (session.perform step).2.registries id = some after) :
    OrderedMap.get? session.registries id = some after ∨
      (∃ source name, step = .openRegistry id source name ∧
        after = { source, cache := after.cache, filters := [], asked := [] } ∧
        after.cache = (match name with
          | some name => session.sharedCache name
          | none => session.newCache).2) ∨
      (∃ before type fields, step = .amendSource id type fields ∧
        OrderedMap.get? session.registries id = some before ∧
        after = { before with source := before.source.amend type.key fields }) ∨
      ∃ request before compile, step = .request id request ∧
        OrderedMap.get? session.registries id = some before ∧
        answer before.source request = .ok compile ∧
        after = { before with
          filters := (compile (session.memoryOf before)).memory.filters
          asked := (compile (session.memoryOf before)).memory.asked } := by
  cases step with
  | openRegistry opened source name =>
      cases name with
      | none =>
          rcases OrderedMap.get?_insert_eq_some h with ⟨rfl, rfl⟩ | hold
          · exact Or.inr (Or.inl ⟨source, none, rfl, rfl, rfl⟩)
          · exact Or.inl hold
      | some name =>
          simp only [perform, registries_sharedCache] at h
          rcases OrderedMap.get?_insert_eq_some h with ⟨rfl, rfl⟩ | hold
          · exact Or.inr (Or.inl ⟨source, some name, rfl, rfl, rfl⟩)
          · exact Or.inl hold
  | putFields name type fields =>
      simp only [perform, registries_sharedCache] at h
      exact Or.inl h
  | listTypes name =>
      simp only [perform, registries_sharedCache] at h
      exact Or.inl h
  | amendSource amended type fields =>
      simp only [perform] at h
      cases hregistry : OrderedMap.get? session.registries amended with
      | none =>
          simp only [hregistry] at h
          exact Or.inl h
      | some registry =>
          simp only [hregistry] at h
          rcases OrderedMap.get?_insert_eq_some h with ⟨rfl, rfl⟩ | hold
          · exact Or.inr (Or.inr (Or.inl ⟨registry, type, fields, rfl, hregistry, rfl⟩))
          · exact Or.inl hold
  | request asked request =>
      simp only [perform] at h
      cases hregistry : OrderedMap.get? session.registries asked with
      | none =>
          simp only [hregistry] at h
          exact Or.inl h
      | some registry =>
          simp only [hregistry] at h
          cases hanswer : answer registry.source request with
          | error fault =>
              simp only [hanswer] at h
              exact Or.inl h
          | ok compile =>
              simp only [hanswer, keep] at h
              rcases OrderedMap.get?_insert_eq_some h with ⟨rfl, rfl⟩ | hold
              · exact Or.inr (Or.inr (Or.inr
                  ⟨request, registry, compile, rfl, hregistry, hanswer, rfl⟩))
              · exact Or.inl hold

/-- The filters of a registry are those it had, or none, or those that a request leaves behind. -/
theorem Sound.registry_perform (hsound : session.Sound) {step : SessionStep} {id : String}
    {after : RegistryState}
    (h : OrderedMap.get? (session.perform step).2.registries id = some after) :
    (∃ before, OrderedMap.get? session.registries id = some before ∧
        after.cache = before.cache ∧ after.filters = before.filters) ∨
      (after.filters = [] ∧ after.cache < (session.perform step).2.caches.length) ∨
      ∃ request before compile, step = .request id request ∧
        OrderedMap.get? session.registries id = some before ∧
        answer before.source request = .ok compile ∧ after.cache = before.cache ∧
        after.filters = (compile (session.memoryOf before)).memory.filters := by
  rcases Session.registry_perform h with hold | ⟨source, name, rfl, hafter, hcache⟩ |
    ⟨before, type, fields, rfl, hbefore, rfl⟩ |
    ⟨request, before, compile, rfl, hbefore, hanswer, rfl⟩
  · exact Or.inl ⟨after, hold, rfl, rfl⟩
  · refine Or.inr (Or.inl ⟨by rw [hafter], ?_⟩)
    rw [hcache]
    cases name with
    | none => simp [perform, newCache]
    | some name => exact hsound.sharedCache name
  · exact Or.inl ⟨before, hbefore, rfl, rfl⟩
  · exact Or.inr (Or.inr ⟨request, before, compile, rfl, hbefore, hanswer, rfl, rfl⟩)

theorem Sound.perform (h : session.Sound) (step : SessionStep) :
    (session.perform step).2.Sound where
  names name cache hcache := h.names_perform step name hcache
  registries := by
    intro id after hafter
    have hlength := length_perform session step
    rcases h.registry_perform hafter with ⟨before, hbefore, hcache, -⟩ | ⟨-, hcache⟩ |
      ⟨request, before, compile, -, hbefore, -, hcache, -⟩
    · exact hcache ▸ Nat.lt_of_lt_of_le (h.registries id before hbefore) hlength
    · exact hcache
    · exact hcache ▸ Nat.lt_of_lt_of_le (h.registries id before hbefore) hlength

theorem Arises.sound {sort : Session → SessionStep → Prop} (h : Arises sort session) :
    session.Sound := by
  induction h with
  | start =>
      refine ⟨fun id registry hregistry => ?_, fun name cache hcache => ?_⟩
      · cases hregistry
      · cases hcache
  | step _ step _ ih => exact ih.perform step

/-! ### What all registries remember -/

/-- What holds of the filters and the cache of every registry of a session. -/
def Each (invariant : FieldCache → List (FilterKey × IssuedFilter) → Prop) (session : Session) :
    Prop :=
  ∀ id registry, OrderedMap.get? session.registries id = some registry →
    invariant (session.cacheAt registry.cache) registry.filters

theorem Arises.registries {sort : Session → SessionStep → Prop} (h : Arises sort session)
    (invariant : FieldCache → List (FilterKey × IssuedFilter) → Prop)
    (hopened : ∀ cache, invariant cache [])
    (hserved : ∀ source request compile, answer source request = .ok compile →
      ∀ memory : Memory, invariant memory.cache memory.filters →
        invariant (compile memory).memory.cache (compile memory).memory.filters)
    (hcaches : ∀ session step cache filters, sort session step →
      invariant (session.cacheAt cache) filters →
      invariant ((session.perform step).2.cacheAt cache) filters) :
    session.Each invariant := by
  induction h with
  | start =>
      intro id registry hregistry
      cases hregistry
  | @step session h step hsort ih =>
      intro id after hafter
      rcases h.sound.registry_perform hafter with ⟨before, hbefore, hcache, hfilters⟩ |
        ⟨hfilters, -⟩ | ⟨request, before, compile, rfl, hbefore, hanswer, hcache, hfilters⟩
      · -- others may have written to the cache
        rw [hcache, hfilters]
        exact hcaches session step _ _ hsort (ih id before hbefore)
      · rw [hfilters]
        exact hopened _
      · -- the request was put to this registry, and left the cache and the filters together
        have hkept : (session.perform (.request id request)).2.cacheAt before.cache =
            (compile (session.memoryOf before)).memory.cache := by
          simp only [perform, hbefore, hanswer, cacheAt_keep, true_and,
            h.sound.registries id before hbefore, if_true]
        rw [hcache, hfilters, hkept]
        exact hserved _ _ _ hanswer (session.memoryOf before) (ih id before hbefore)

end Session

/-- What a compilation starts from: all that the registry remembers, if there is one, at a point
of some session. -/
def Context.StartsFrom (sort : Session → SessionStep → Prop) (context : Context)
    (memory : Memory) : Prop :=
  ∀ target, context.options.target = some target → ∃ session id registry,
    Session.Arises sort session ∧
      OrderedMap.get? session.registries id = some registry ∧
      registry.source = target.source ∧ memory = session.memoryOf registry

/-- A registry that has just been opened remembers nothing. -/
theorem Context.startsFrom_empty (context : Context) :
    context.StartsFrom Session.anyStep Memory.empty := by
  intro target _
  exact ⟨_, "registry", _, .step .start (.openRegistry "registry" target.source none) trivial, rfl,
    rfl, rfl⟩

inductive Served (source : Source) (start : Memory) : Memory → Prop where
  | start : Served source start start
  | request {memory : Memory} (h : Served source start memory) (request : Request)
      {compile : Compile Answer} (hanswer : Session.answer source request = .ok compile) :
      Served source start (compile memory).memory

/-- One compilation may start from what was remembered at the start of another, if there is a
registry at all, after some more requests to that registry. -/
def Context.Served (context : Context) (start memory : Memory) : Prop :=
  ∀ target, context.options.target = some target → QueryProjection.Served target.source start memory

end QueryProjection
