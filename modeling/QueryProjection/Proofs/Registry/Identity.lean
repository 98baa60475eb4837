import QueryProjection.Proofs.Registry.Coherence
import QueryProjection.Proofs.Registry.Forgetting
import QueryProjection.Proofs.Registry.Issuing

/-!
# Which filters are the same

Two filters are the same if they have the same number.  A registry gives the same filter again
exactly if it is asked for the same type and for the same names to leave out, whatever is done
meanwhile to sources, caches and other registries; and a filter goes on saying what it said when it
was made (`filters_memoized`).

One lemma says what a step does to the filters of a registry (`filters_perform`).  From it comes the
invariant that all filters of a session have different numbers (`Numbered`), and what becomes of the
filters on the way: those of a registry stay (`exists_registry_run`), and those that are there at
the end were there at the beginning or have later numbers (`origin_run`).
-/

namespace QueryProjection

namespace Session

def run (session : Session) (steps : List SessionStep) : Session :=
  steps.foldl (fun session step => (session.perform step).2) session

/-- The step opens a registry of this name, be there one already or not. -/
def Opens (id : String) (step : SessionStep) : Prop :=
  ∃ source cache, step = .openRegistry id source cache

theorem run_append (session : Session) (steps more : List SessionStep) :
    session.run (steps ++ more) = (session.run steps).run more :=
  List.foldl_append

theorem run_append_singleton (session : Session) (steps : List SessionStep) (step : SessionStep) :
    session.run (steps ++ [step]) = ((session.run steps).perform step).2 :=
  run_append session steps [step]

theorem arises_run (steps : List SessionStep) : Arises anyStep (start.run steps) := by
  induction steps using List.reverseRecOn with
  | nil => exact .start
  | append_singleton steps step ih =>
      rw [run_append_singleton]
      exact ih.step step trivial

/-! ### What a step does to filters -/

section Steps

variable {session : Session} (hsound : session.Sound) {step : SessionStep} {id : String}

include hsound

/-- What a step does to the filters of a registry: there are none if it opens the registry, and if
it is a request to the registry then it makes some that the request needs. -/
theorem filters_perform {after : RegistryState}
    (h : OrderedMap.get? (session.perform step).2.registries id = some after) :
    (Opens id step ∧ after.filters = []) ∨
      ¬ Opens id step ∧ ∃ before, OrderedMap.get? session.registries id = some before ∧
        (after.filters = before.filters ∨ ∃ request, step = .request id request ∧
          after.cache = before.cache ∧ Issues request.NeedsFilter (session.memoryOf before)
            ((session.perform step).2.memoryOf after)) := by
  by_cases hopens : Opens id step
  · left
    refine ⟨hopens, ?_⟩
    obtain ⟨source, cache, rfl⟩ := hopens
    simp only [perform, OrderedMap.get?_insert_self, Option.some.injEq] at h
    rw [← h]
  · right
    refine ⟨hopens, ?_⟩
    rcases registry_perform h with hold | ⟨source, name, rfl, -⟩ |
      ⟨before, type, fields, rfl, hbefore, rfl⟩ |
      ⟨request, before, compile, rfl, hbefore, hanswer, rfl⟩
    · exact ⟨after, hold, Or.inl rfl⟩
    · exact absurd ⟨source, name, rfl⟩ hopens
    · exact ⟨before, hbefore, Or.inl rfl⟩
    · refine ⟨before, hbefore, Or.inr ⟨request, rfl, rfl, ?_⟩⟩
      rw [perform_request hbefore hanswer, memoryOf_keep (hsound.registries id before hbefore)]
      exact issues_answer hanswer _

omit hsound in
theorem nextSerial_perform : session.nextSerial ≤ (session.perform step).2.nextSerial := by
  have hshared : ∀ name, (session.sharedCache name).1.nextSerial = session.nextSerial := by
    intro name
    unfold sharedCache
    split <;> rfl
  cases step with
  | openRegistry id source cache =>
      cases cache with
      | none => exact Nat.le_refl _
      | some name => exact Nat.le_of_eq (hshared name).symm
  | putFields name type fields => exact Nat.le_of_eq (hshared name).symm
  | listTypes name => exact Nat.le_of_eq (hshared name).symm
  | amendSource id type fields =>
      simp only [perform]
      split <;> exact Nat.le_refl _
  | request id request =>
      simp only [perform]
      split
      · exact Nat.le_refl _
      · rename_i registry _
        split
        · exact Nat.le_refl _
        · rename_i hanswer
          exact (issues_answer hanswer (session.memoryOf registry)).nextSerial

/-- A filter was there before the step, or the step is a request that makes it. -/
theorem origin_perform {after : RegistryState}
    (h : OrderedMap.get? (session.perform step).2.registries id = some after)
    {entry : FilterKey × IssuedFilter} (hentry : entry ∈ after.filters) :
    ¬ Opens id step ∧ ∃ before, OrderedMap.get? session.registries id = some before ∧
      (entry ∈ before.filters ∨ ∃ request, step = .request id request ∧
        after.cache = before.cache ∧
        Issues request.NeedsFilter (session.memoryOf before)
          ((session.perform step).2.memoryOf after) ∧
        NewFilter request.NeedsFilter (session.memoryOf before)
          ((session.perform step).2.memoryOf after) entry) := by
  rcases filters_perform hsound h with ⟨-, hnone⟩ | ⟨hopens, before, hbefore, hsame | ⟨request,
    hrequest, hcache, hissues⟩⟩
  · rw [hnone] at hentry
    cases hentry
  · exact ⟨hopens, before, hbefore, Or.inl (hsame ▸ hentry)⟩
  · refine ⟨hopens, before, hbefore, ?_⟩
    rcases hissues.mem_filters hentry with hold | hnew
    · exact Or.inl hold
    · exact Or.inr ⟨request, hrequest, hcache, hissues, hnew⟩

omit hsound in
/-- Where there is a registry of some name there will be one. -/
theorem exists_after_perform {registry : RegistryState}
    (hregistry : OrderedMap.get? session.registries id = some registry) (step : SessionStep) :
    ∃ after, OrderedMap.get? (session.perform step).2.registries id = some after := by
  have hinsert : ∀ other (changed : RegistryState), ∃ after,
      OrderedMap.get? (OrderedMap.insert session.registries other changed) id = some after := by
    intro other changed
    by_cases hother : other = id
    · rw [hother, OrderedMap.get?_insert_self]
      exact ⟨changed, rfl⟩
    · rw [OrderedMap.get?_insert_of_ne _ _ hother]
      exact ⟨registry, hregistry⟩
  cases step with
  | openRegistry other source cache =>
      cases cache with
      | none => exact hinsert other _
      | some name =>
          simp only [perform, registries_sharedCache]
          exact hinsert other _
  | putFields name type fields =>
      simp only [perform, registries_sharedCache]
      exact ⟨registry, hregistry⟩
  | listTypes name =>
      simp only [perform, registries_sharedCache]
      exact ⟨registry, hregistry⟩
  | amendSource other type fields =>
      simp only [perform]
      split
      · exact ⟨registry, hregistry⟩
      · exact hinsert other _
  | request other request =>
      simp only [perform]
      split
      · exact ⟨registry, hregistry⟩
      · split
        · exact ⟨registry, hregistry⟩
        · exact hinsert other _

/-- A registry stays until another one is opened under its name, and keeps its filters. -/
theorem exists_registry_perform {registry : RegistryState}
    (hregistry : OrderedMap.get? session.registries id = some registry)
    (hopens : ¬ Opens id step) :
    ∃ after, OrderedMap.get? (session.perform step).2.registries id = some after ∧
      registry.filters <+: after.filters := by
  obtain ⟨after, hafter⟩ := exists_after_perform hregistry step
  refine ⟨after, hafter, ?_⟩
  rcases filters_perform hsound hafter with ⟨hopened, -⟩ | ⟨-, before, hbefore, hfilters⟩
  · exact absurd hopened hopens
  · rw [hregistry] at hbefore
    cases hbefore
    rcases hfilters with hsame | ⟨request, -, -, hissues⟩
    · exact hsame.symm ▸ List.prefix_rfl
    · exact hissues.filters

end Steps

/-! ### All filters have different numbers -/

/-- The filters of a session are told apart by their numbers, and are numbered up to the next
number. -/
structure Numbered (session : Session) : Prop where
  below : ∀ id registry, OrderedMap.get? session.registries id = some registry →
    ∀ entry ∈ registry.filters, entry.2.serial < session.nextSerial
  apart : ∀ id id' registry registry', OrderedMap.get? session.registries id = some registry →
    OrderedMap.get? session.registries id' = some registry' →
    ∀ entry ∈ registry.filters, ∀ entry' ∈ registry'.filters,
      entry.2.serial = entry'.2.serial → id = id' ∧ entry = entry'

theorem Numbered.perform {session : Session} (hsound : session.Sound) (h : session.Numbered)
    (step : SessionStep) : (session.perform step).2.Numbered where
  below := by
    intro id after hafter entry hentry
    obtain ⟨-, before, hbefore, hold | ⟨_, -, -, -, hnew⟩⟩ := origin_perform hsound hafter hentry
    · exact Nat.lt_of_lt_of_le (h.below id before hbefore entry hold) nextSerial_perform
    · exact hnew.numbered
  apart := by
    intro id id' after after' hafter hafter' entry hentry entry' hentry' heq
    obtain ⟨-, before, hbefore, horigin⟩ := origin_perform hsound hafter hentry
    obtain ⟨-, before', hbefore', horigin'⟩ := origin_perform hsound hafter' hentry'
    rcases horigin with hold | ⟨request, rfl, -, hissues, hnew⟩
    · rcases horigin' with hold' | ⟨_, -, -, -, hnew'⟩
      · exact h.apart id id' before before' hbefore hbefore' entry hold entry' hold' heq
      · have hlt := h.below id before hbefore entry hold
        exact absurd hnew'.fresh (Nat.not_le.mpr (heq ▸ hlt))
    · rcases horigin' with hold' | ⟨request', hrequest', -⟩
      · have hlt := h.below id' before' hbefore' entry' hold'
        exact absurd hnew.fresh (Nat.not_le.mpr (heq ▸ hlt))
      · -- both are made by one request, to one registry
        cases hrequest'
        rw [hafter] at hafter'
        cases hafter'
        exact ⟨rfl, hissues.eq_of_serial hentry hentry' hnew.fresh (h.below id before hbefore) heq⟩

theorem Arises.numbered {sort : Session → SessionStep → Prop} {session : Session}
    (h : Arises sort session) : session.Numbered := by
  induction h with
  | start =>
      constructor
      · intro id registry hregistry
        cases hregistry
      · intro id id' registry registry' hregistry
        cases hregistry
  | step harises step _ ih => exact ih.perform harises.sound step

/-! ### What becomes of filters -/

section Runs

variable {session : Session} (hsound : session.Sound) {id : String}

theorem nextSerial_run (session : Session) (steps : List SessionStep) :
    session.nextSerial ≤ (session.run steps).nextSerial := by
  induction steps generalizing session with
  | nil => exact Nat.le_refl _
  | cons step rest ih => exact Nat.le_trans nextSerial_perform (ih _)

include hsound

theorem sound_run (steps : List SessionStep) : (session.run steps).Sound := by
  induction steps generalizing session with
  | nil => exact hsound
  | cons step rest ih => exact ih (hsound.perform step)

theorem exists_registry_run {registry : RegistryState}
    (hregistry : OrderedMap.get? session.registries id = some registry)
    {steps : List SessionStep} (hopens : ∀ step ∈ steps, ¬ Opens id step) :
    ∃ after, OrderedMap.get? (session.run steps).registries id = some after ∧
      registry.filters <+: after.filters := by
  induction steps generalizing session registry with
  | nil => exact ⟨registry, hregistry, List.prefix_rfl⟩
  | cons step rest ih =>
      rw [List.forall_mem_cons] at hopens
      obtain ⟨next, hnext, hkept⟩ := exists_registry_perform hsound hregistry hopens.1
      obtain ⟨after, hafter, hmore⟩ := ih (hsound.perform step) hnext hopens.2
      exact ⟨after, hafter, hkept.trans hmore⟩

/-- A filter was there at the beginning, in the same registry, or has a later number. -/
theorem origin_run (steps : List SessionStep) {after : RegistryState}
    (h : OrderedMap.get? (session.run steps).registries id = some after)
    {entry : FilterKey × IssuedFilter} (hentry : entry ∈ after.filters) :
    ((∀ step ∈ steps, ¬ Opens id step) ∧ ∃ registry,
      OrderedMap.get? session.registries id = some registry ∧ entry ∈ registry.filters) ∨
    session.nextSerial ≤ entry.2.serial := by
  induction steps using List.reverseRecOn generalizing after with
  | nil => exact Or.inl ⟨nofun, after, h, hentry⟩
  | append_singleton steps step ih =>
      rw [run_append_singleton] at h
      obtain ⟨hopens, before, hbefore, hold | ⟨_, -, -, -, hnew⟩⟩ :=
        origin_perform (sound_run hsound steps) h hentry
      · rcases ih hbefore hold with ⟨hearlier, hthere⟩ | hlater
        · left
          exact ⟨List.forall_mem_append.mpr ⟨hearlier, List.forall_mem_singleton.mpr hopens⟩,
            hthere⟩
        · exact Or.inr hlater
      · exact Or.inr (Nat.le_trans (nextSerial_run session steps) hnew.fresh)

/-- What has the number of a filter at the beginning is that filter, in the same registry. -/
theorem eq_of_serial_run (hnumbered : session.Numbered) {registry : RegistryState}
    (hregistry : OrderedMap.get? session.registries id = some registry)
    {entry : FilterKey × IssuedFilter} (hentry : entry ∈ registry.filters)
    {steps : List SessionStep} {id' : String} {registry' : RegistryState}
    (hregistry' : OrderedMap.get? (session.run steps).registries id' = some registry')
    {entry' : FilterKey × IssuedFilter} (hentry' : entry' ∈ registry'.filters)
    (heq : entry'.2.serial = entry.2.serial) :
    id' = id ∧ (∀ step ∈ steps, ¬ Opens id step) ∧ entry' = entry := by
  rcases origin_run hsound steps hregistry' hentry' with
    ⟨hopens, earlier, hearlier, hthere⟩ | hlater
  · obtain ⟨rfl, hsame⟩ := hnumbered.apart id' id earlier registry hearlier hregistry entry' hthere
      entry hentry heq
    exact ⟨rfl, hopens, hsame⟩
  · have hlt := hnumbered.below id registry hregistry entry hentry
    exact absurd hlater (Nat.not_le.mpr (heq ▸ hlt))

end Runs

/-! ### Filters that are given -/

def Gives (session : Session) (id : String) (type : TypeName) (exclude : List String)
    (issued : IssuedFilter) : Prop :=
  (session.perform (.request id (.fieldFilter type exclude))).1.result = .ok (.filter issued)

section Given

variable {session : Session} {id : String} {type : TypeName} {exclude : List String}
  {issued : IssuedFilter}

/-- What is given is remembered. -/
theorem Gives.exists_registry (hsound : session.Sound) (h : session.Gives id type exclude issued) :
    ∃ registry,
      OrderedMap.get? (session.perform (.request id (.fieldFilter type exclude))).2.registries id =
        some registry ∧
      ((session.perform (.request id (.fieldFilter type exclude))).2.memoryOf registry).filter?
        { type := type.key, exclude } = some issued := by
  unfold Gives at h
  cases hregistry : OrderedMap.get? session.registries id with
  | none =>
      simp only [perform, hregistry] at h
      cases h
  | some registry =>
      obtain ⟨found, hfound, heq⟩ := (result_perform_eq_ok hregistry rfl).mp h
      cases heq
      rw [perform_request hregistry rfl, Compile.ofLookup_map]
      refine ⟨_, OrderedMap.get?_insert_self _ _ _, ?_⟩
      rw [memoryOf_keep (hsound.registries id registry hregistry)]
      exact Registry.filter?_of_fieldFilter hfound

/-- What is remembered is given. -/
theorem gives_of_filter? {registry : RegistryState}
    (hregistry : OrderedMap.get? session.registries id = some registry)
    (h : (session.memoryOf registry).filter? { type := type.key, exclude } = some issued) :
    session.Gives id type exclude issued :=
  (result_perform_eq_ok hregistry rfl).mpr
    ⟨issued, congrArg Prod.fst (Registry.fieldFilter_of_filter? h), rfl⟩

/-- Of two filters that are given one after the other. -/
theorem Gives.serial_eq_iff (hsound : session.Sound) (hnumbered : session.Numbered)
    (h : session.Gives id type exclude issued) {between : List SessionStep} {id' : String}
    {type' : TypeName} {exclude' : List String} {issued' : IssuedFilter}
    (h' : ((session.perform (.request id (.fieldFilter type exclude))).2.run between).Gives id'
      type' exclude' issued') :
    (issued'.serial = issued.serial ↔ id' = id ∧ (∀ step ∈ between, ¬ Opens id step) ∧
      type'.key = type.key ∧ ∀ name, name ∈ exclude' ↔ name ∈ exclude) ∧
    (issued'.serial = issued.serial → issued' = issued) := by
  have hsound' := hsound.perform (.request id (.fieldFilter type exclude))
  obtain ⟨registry, hregistry, hfound⟩ := h.exists_registry hsound
  obtain ⟨known, hknown, htype, hnames⟩ := Memory.exists_of_filter? hfound
  obtain ⟨registry', hregistry', hfound'⟩ := h'.exists_registry (sound_run hsound' between)
  obtain ⟨known', hknown', htype', hnames'⟩ := Memory.exists_of_filter? hfound'
  rw [← run_append_singleton] at hregistry'
  have hsame := eq_of_serial_run hsound' (hnumbered.perform hsound _) hregistry hknown hregistry'
    hknown'
  refine ⟨⟨fun heq => ?_, ?_⟩, fun heq => ?_⟩
  · -- one number means one entry, and so one key
    obtain ⟨hid, hopens, hentry⟩ := hsame heq
    cases hentry
    refine ⟨hid, fun step hstep => hopens step (List.mem_append_left _ hstep), ?_, fun name => ?_⟩
    · exact htype'.symm.trans htype
    · exact (hnames' name).symm.trans (hnames name)
  · -- the filter is still remembered under a key that says the same
    rintro ⟨rfl, hopens, hkey, hexclude⟩
    obtain ⟨kept, hkept, hprefix⟩ := exists_registry_run hsound' hregistry hopens
    have hstill : (((session.perform (.request id' (.fieldFilter type exclude))).2.run
        between).memoryOf kept).filter? { type := type'.key, exclude := exclude' } =
          some issued := by
      rw [Memory.filter?_congr hkey hexclude]
      exact Memory.filter?_of_prefix hprefix hfound
    have hagain := gives_of_filter? hkept hstill
    rw [Gives] at h' hagain
    rw [h'] at hagain
    cases hagain
    rfl
  · obtain ⟨-, -, hentry⟩ := hsame heq
    exact congrArg Prod.snd hentry

end Given

/-! ### How filters are made -/

/-- After some steps a request to a registry makes a filter.  The filter is numbered then, the
request needs one for the type that leaves out the names, and it is as good as a new one with the
fields that the cache of the registry then holds of the type. -/
structure MadeBy (steps : List SessionStep) (id : String) (request : Request) (type : TypeName)
    (exclude : List String) (issued : IssuedFilter) : Prop where
  fresh : (start.run steps).nextSerial ≤ issued.serial
  numbered : issued.serial < ((start.run steps).perform (.request id request)).2.nextSerial
  needed : ∃ asked omitted, request.NeedsFilter asked omitted ∧ asked.key = type.key ∧
    ∀ name, name ∈ omitted ↔ name ∈ exclude
  frozen : ∃ registry fields,
    OrderedMap.get? ((start.run steps).perform (.request id request)).2.registries id =
      some registry ∧
    (((start.run steps).perform (.request id request)).2.cacheAt registry.cache).fields? type =
      some fields ∧
    (∀ earlier, ((start.run steps).cacheAt registry.cache).fields? type = some earlier →
      earlier = fields) ∧
    ∀ name, issued.filter.classify name =
      ({ fields := some fields, exclude : FieldFilter }).classify name

section Made

variable {id : String} {registry : RegistryState} {known : FilterKey} {issued : IssuedFilter}
  {type : TypeName} (htype : known.type = type.key) {exclude : List String}
  (hnames : ∀ name, name ∈ known.exclude ↔ name ∈ exclude)

include htype hnames

theorem madeBy_of_newFilter {steps : List SessionStep} {request : Request}
    {earlier : RegistryState}
    (hregistry : OrderedMap.get? ((start.run steps).perform (.request id request)).2.registries id =
      some registry) (hcache : registry.cache = earlier.cache)
    (hissues : Issues request.NeedsFilter ((start.run steps).memoryOf earlier)
      (((start.run steps).perform (.request id request)).2.memoryOf registry))
    (hnew : NewFilter request.NeedsFilter ((start.run steps).memoryOf earlier)
      (((start.run steps).perform (.request id request)).2.memoryOf registry) (known, issued)) :
    MadeBy steps id request type exclude issued := by
  obtain ⟨asked, omitted, hneeded, hkey⟩ := hnew.needed
  obtain ⟨first, fields, hfields, hfilter⟩ := hnew.described
  simp only at hkey hfields hfilter
  rw [htype] at hfields
  refine ⟨hnew.fresh, hnew.numbered, ⟨asked, omitted, hneeded, ?_, ?_⟩, registry, fields, hregistry,
    ?_, fun before hbefore => ?_, FieldFilter.similar_of_names ?_ ?_⟩
  · rw [← htype, hkey]
  · rw [hkey] at hnames
    exact hnames
  · exact congrArg (Option.map Prod.snd) hfields
  · -- within one request no entry of the cache is changed
    obtain ⟨⟨name, found⟩, hfound, rfl⟩ := Option.map_eq_some_iff.mp hbefore
    rw [hcache] at hfound
    have hkept := OrderedMap.get?_of_prefix hissues.cache hfound
    rw [hfields] at hkept
    cases hkept
    rfl
  · rw [hfilter]
  · rw [hfilter]
    exact hnames

/-- Whatever filter is remembered, one of the steps has made it. -/
theorem exists_madeBy (steps : List SessionStep)
    (hregistry : OrderedMap.get? (start.run steps).registries id = some registry)
    (hentry : (known, issued) ∈ registry.filters) :
    ∃ before request between, steps = before ++ .request id request :: between ∧
      (∀ step ∈ between, ¬ Opens id step) ∧ MadeBy before id request type exclude issued := by
  induction steps using List.reverseRecOn generalizing registry with
  | nil => cases hregistry
  | append_singleton steps step ih =>
      rw [run_append_singleton] at hregistry
      obtain ⟨hopens, earlier, hearlier, hold | ⟨request, rfl, hcache, hissues, hnew⟩⟩ :=
        origin_perform (arises_run steps).sound hregistry hentry
      · obtain ⟨before, request, between, rfl, hbetween, hmade⟩ := ih hearlier hold
        exact ⟨before, request, between ++ [step], by simp,
          List.forall_mem_append.mpr ⟨hbetween, List.forall_mem_singleton.mpr hopens⟩, hmade⟩
      · exact ⟨steps, request, [], rfl, nofun,
          madeBy_of_newFilter htype hnames hregistry hcache hissues hnew⟩

end Made

/-- A filter that is given is given again exactly if the same registry is asked for the same type
and for the same names to leave out, whatever was done meanwhile.  It was made by an earlier request
to the registry, or by this one, and still says what the cache said of the type then. -/
theorem filters_memoized {steps : List SessionStep} {id : String} {type : TypeName}
    {exclude : List String} {issued : IssuedFilter}
    (h : (start.run steps).Gives id type exclude issued) :
    (∀ between id' type' exclude' issued',
      (start.run (steps ++ .request id (.fieldFilter type exclude) :: between)).Gives id' type'
        exclude' issued' →
      (issued'.serial = issued.serial ↔ id' = id ∧ (∀ step ∈ between, ¬ Opens id step) ∧
        type'.key = type.key ∧ ∀ name, name ∈ exclude' ↔ name ∈ exclude) ∧
      (issued'.serial = issued.serial → issued' = issued)) ∧
    ∃ before request between,
      steps ++ [.request id (.fieldFilter type exclude)] =
        before ++ .request id request :: between ∧
      (∀ step ∈ between, ¬ Opens id step) ∧ MadeBy before id request type exclude issued := by
  have harises := arises_run steps
  constructor
  · intro between id' type' exclude' issued' h'
    rw [run_append] at h'
    exact h.serial_eq_iff harises.sound harises.numbered h'
  · obtain ⟨registry, hregistry, hfound⟩ := h.exists_registry harises.sound
    obtain ⟨known, hknown, htype, hnames⟩ := Memory.exists_of_filter? hfound
    rw [← run_append_singleton] at hregistry
    exact exists_madeBy htype hnames _ hregistry hknown

/-- The friends of a person are compiled without their posts.  Then people are entered in the cache
by hand, as something else, and the source forgets them. -/
def compiledThenForgotten : List SessionStep :=
  [.openRegistry "first" Expansion.people (some "shared"), .request "first" friendsAfterwards,
    .putFields "shared" (.text "Person") { scalars := ["age"], relations := [] },
    .amendSource "first" (.text "Person") none]

def otherMeanwhile : List SessionStep :=
  [.openRegistry "second" Expansion.people (some "shared"),
    .request "second" (.fieldFilter (.text "Person") ["posts", "id"])]

/-- The filter that was made for the compilation is given to all who ask the registry for it. -/
theorem memoized_compiledThenForgotten :
    ∃ issued issued',
      (start.run compiledThenForgotten).Gives "first" (.text "Person") ["posts", "id"] issued ∧
      (start.run (compiledThenForgotten ++
        .request "first" (.fieldFilter (.text "Person") ["posts", "id"]) :: otherMeanwhile)).Gives
          "first" (.text "Person") ["id", "posts", "id"] issued' ∧
      issued' = issued ∧ issued.filter.classify "friend" = some .relation ∧
      ∃ before request between,
        MadeBy before "first" request (.text "Person") ["posts", "id"] issued ∧
        compiledThenForgotten ++
            [.request "first" (.fieldFilter (.text "Person") ["posts", "id"])] =
          before ++ .request "first" request :: between := by
  have hgives : ∃ issued,
      (start.run compiledThenForgotten).Gives "first" (.text "Person") ["posts", "id"] issued ∧
        issued.filter.classify "friend" = some .relation := ⟨_, rfl, rfl⟩
  have hagain : ∃ issued, (start.run (compiledThenForgotten ++
      .request "first" (.fieldFilter (.text "Person") ["posts", "id"]) :: otherMeanwhile)).Gives
        "first" (.text "Person") ["id", "posts", "id"] issued := ⟨_, rfl⟩
  obtain ⟨issued, hissued, hfriend⟩ := hgives
  obtain ⟨issued', hissued'⟩ := hagain
  obtain ⟨hsame, before, request, between, hsteps, -, hmade⟩ := filters_memoized hissued
  obtain ⟨hiff, heq⟩ := hsame otherMeanwhile _ _ _ _ hissued'
  have hserial : issued'.serial = issued.serial := by
    refine hiff.mpr ⟨rfl, ?_, rfl, ?_⟩
    · rintro step hstep ⟨source, cache, rfl⟩
      simp [otherMeanwhile] at hstep
    · intro name
      simp only [List.mem_cons, List.not_mem_nil, or_false]
      tauto
  exact ⟨issued, issued', hissued, hissued', heq hserial, hfriend, before, request, between, hmade,
    hsteps⟩

end Session

end QueryProjection
