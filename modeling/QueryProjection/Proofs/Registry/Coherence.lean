import QueryProjection.Proofs.Expansion.Settled
import QueryProjection.Proofs.Registry.Faithful

/-!
# The look-ups of a registry agree

Of one type, a registry can be asked whether it is known, what its fields are, where one of them
leads, and for a filter.  The answers come from three places: the cache, which others write to as
well, the filters that the registry keeps to itself, and the source, which may have changed since
either was filled.  A filter is even given when the source has forgotten its type.

The four questions agree nevertheless, as long as entries are only ever added to caches
(`perform_lookups_agree`).  A filter that is kept goes with an entry of the cache, so wherever
there is an old filter the other look-ups do not reach the source either.  What the invariants of
`Faithful.lean` leave open is whether a relation could be mapped to null, which a caller cannot
tell from no relation; `Informed` is the invariant that none is.
-/

namespace QueryProjection

def ModelFields.Targeted (fields : ModelFields) : Prop :=
  ∀ name target, fields.related? name = some target → target.toDatum ≠ .null

def Source.Targeted (source : Source) : Prop :=
  ∀ moment type fields, source.answer moment type = .ok (some fields) → fields.Targeted

def SessionStep.Targeted : SessionStep → Prop
  | .openRegistry _ source _ => source.Targeted
  | .putFields _ _ fields => fields.Targeted
  | .amendSource _ _ fields => ∀ given, fields = some given → given.Targeted
  | .listTypes _ | .request _ _ => True

theorem Source.Targeted.amend {source : Source} (h : source.Targeted) {type : Key}
    {fields : Option ModelFields} (hfields : ∀ given, fields = some given → given.Targeted) :
    (source.amend type fields).Targeted := by
  intro moment asked found hanswer
  simp only [Source.amend] at hanswer
  split at hanswer
  · exact hfields found (Except.ok.inj hanswer)
  · exact h moment asked found hanswer

theorem Source.targeted_ofTable {table : OrderedMap String ModelFields}
    (h : ∀ entry ∈ table, entry.2.Targeted) : (Source.ofTable table).Targeted := by
  intro moment type fields hanswer
  obtain ⟨name, -, hfound⟩ := Source.exists_of_ofLookup hanswer
  exact h _ (OrderedMap.mem_of_get? hfound)

theorem ModelFields.targeted_of_relations {fields : ModelFields}
    (h : ∀ entry ∈ fields.relations, entry.2.toDatum ≠ .null) : fields.Targeted :=
  fun _ _ hfound => h _ (OrderedMap.mem_of_get? hfound)

/-! ### What one memory answers -/

namespace Registry

variable {memory : Memory}

/-- A filter is given if the fields are, and then it is as good as a new one. -/
theorem fieldFilter_of_matched (source : Source) (hkeyed : memory.Keyed)
    (hmatched : memory.Matched) (type : TypeName) (exclude : List String) :
    (∃ issued fields, ((fieldFilter source type exclude).run memory).1 = .ok issued ∧
        memory.fieldsOf source type = .ok fields ∧
        issued.filter.Similar { fields := some fields, exclude }) ∨
      ∃ fault, ((fieldFilter source type exclude).run memory).1 = .error fault ∧
        memory.fieldsOf source type = .error fault := by
  have hfilter := filter_fieldFilter source type exclude memory
  rcases (Memory.Faithful.of_matched hkeyed hmatched).filterOf type exclude with
    ⟨filter, fields, hgiven, hdescribed, hfields, hnames⟩ | ⟨fault, hgiven, hfault⟩
  · rw [hgiven, map_eq_ok] at hfilter
    obtain ⟨issued, hissued, rfl⟩ := hfilter
    exact Or.inl ⟨issued, fields, hissued, Memory.fieldsOf_eq_ok.mpr hdescribed,
      FieldFilter.similar_of_names hfields hnames⟩
  · rw [hgiven, map_eq_error] at hfilter
    exact Or.inr ⟨fault, hfilter, hfault⟩

end Registry

namespace Session

variable {session : Session} {id : String} {registry : RegistryState}

theorem Arises.mono {sort sort' : Session → SessionStep → Prop} (h : Arises sort session)
    (himp : ∀ session step, sort session step → sort' session step) : Arises sort' session := by
  induction h with
  | start => exact .start
  | step _ step hsort ih => exact .step ih step (himp _ step hsort)

/-! ### What a request for a look-up is answered with -/

/-- The registry would return something if it were asked now. -/
def Returns (session : Session) (id : String) (request : Request) : Prop :=
  ∃ given, (session.perform (.request id request)).1.result = .ok given

section Answers

variable (hregistry : OrderedMap.get? session.registries id = some registry)

include hregistry

theorem result_perform_eq_ok {α : Type} {request : Request} {lookup : Lookup α} {f : α → Answer}
    (hanswer : answer registry.source request = .ok do return f (← Compile.ofLookup lookup))
    {given : Answer} :
    (session.perform (.request id request)).1.result = .ok given ↔
      ∃ value, (lookup.run (session.memoryOf registry)).1 = .ok value ∧ f value = given := by
  rw [perform_request hregistry hanswer, Compile.ofLookup_map]
  cases (lookup.run (session.memoryOf registry)).1 with
  | error fault => simp [Except.map, Except.mapError]
  | ok value => simp [Except.map, Except.mapError]

theorem returns_iff {α : Type} {request : Request} {lookup : Lookup α} {f : α → Answer}
    (hanswer : answer registry.source request = .ok do return f (← Compile.ofLookup lookup)) :
    session.Returns id request ↔
      ∃ value, (lookup.run (session.memoryOf registry)).1 = .ok value := by
  simp only [Returns, result_perform_eq_ok hregistry hanswer]
  constructor
  · rintro ⟨_, value, hvalue, -⟩
    exact ⟨value, hvalue⟩
  · rintro ⟨value, hvalue⟩
    exact ⟨_, value, hvalue, rfl⟩

theorem result_hasType_iff (type : TypeName) :
    (session.perform (.request id (.hasType type))).1.result = .ok (.truth true) ↔
      ∃ fields, (session.memoryOf registry).fieldsOf registry.source type = .ok fields := by
  rw [result_perform_eq_ok hregistry rfl, ← Registry.hasType_eq_true]
  constructor
  · rintro ⟨_, hknown, heq⟩
    cases heq
    exact hknown
  · exact fun hknown => ⟨true, hknown, rfl⟩

theorem result_modelFields_iff (type : TypeName) (fields : ModelFields) :
    (session.perform (.request id (.modelFields type))).1.result = .ok (.fields fields) ↔
      (session.memoryOf registry).fieldsOf registry.source type = .ok fields := by
  rw [result_perform_eq_ok hregistry rfl, Registry.modelFields_run]
  constructor
  · rintro ⟨_, hfields, heq⟩
    cases heq
    exact hfields
  · exact fun hfields => ⟨fields, hfields, rfl⟩

theorem result_related_iff (type : TypeName) (field : String) (target : Option RelationTarget) :
    (session.perform (.request id (.related type field))).1.result = .ok (.related target) ↔
      ∃ fields, (session.memoryOf registry).fieldsOf registry.source type = .ok fields ∧
        fields.related? field = target := by
  rw [result_perform_eq_ok hregistry rfl, Registry.related_run]
  simp only [map_eq_ok, Answer.related.injEq]
  constructor
  · rintro ⟨_, ⟨fields, hfields, rfl⟩, hrelated⟩
    exact ⟨fields, hfields, hrelated⟩
  · rintro ⟨fields, hfields, hrelated⟩
    exact ⟨_, ⟨fields, hfields, rfl⟩, hrelated⟩

theorem returns_related_iff (type : TypeName) (field : String) :
    session.Returns id (.related type field) ↔
      ∃ fields, (session.memoryOf registry).fieldsOf registry.source type = .ok fields := by
  rw [returns_iff hregistry rfl, Registry.related_run]
  simp only [map_eq_ok]
  constructor
  · rintro ⟨_, fields, hfields, -⟩
    exact ⟨fields, hfields⟩
  · rintro ⟨fields, hfields⟩
    exact ⟨_, fields, hfields, rfl⟩

end Answers

/-! ### No relation in a session is mapped to null -/

/-- Steps that only add to caches, and map no relation to null. -/
def orderly (session : Session) (step : SessionStep) : Prop :=
  addsOnly session step ∧ step.Targeted

structure Informed (session : Session) : Prop where
  sources : ∀ id registry, OrderedMap.get? session.registries id = some registry →
    registry.source.Targeted
  caches : ∀ cache type found, OrderedMap.get? (session.cacheAt cache) type = some found →
    found.2.Targeted

theorem Informed.perform (h : session.Informed) {step : SessionStep} (hstep : step.Targeted) :
    (session.perform step).2.Informed where
  sources := by
    intro id after hafter
    rcases registry_perform hafter with hold | ⟨source, name, rfl, hopened, -⟩ |
      ⟨before, type, fields, rfl, hbefore, rfl⟩ | ⟨request, before, compile, rfl, hbefore, -, rfl⟩
    · exact h.sources id after hold
    · rw [hopened]
      exact hstep
    · exact (h.sources id before hbefore).amend hstep
    · exact h.sources id before hbefore
  caches := by
    intro cache asked found hfound
    rcases cacheAt_perform session step cache with hsame | ⟨name, type, fields, rfl, rfl, hentered⟩ |
      ⟨id, request, registry, compile, rfl, hregistry, hanswer, rfl, hkept⟩
    · exact h.caches cache asked found (hsame ▸ hfound)
    · rw [hentered, FieldCache.enter] at hfound
      rcases OrderedMap.get?_insert_eq_some hfound with ⟨-, hnew⟩ | hold
      · cases hnew
        exact hstep
      · exact h.caches _ asked found hold
    · have hlearnt := ((lookups_lessons registry.source).answer hanswer
        (session.memoryOf registry)).learnt
      rw [hkept] at hfound
      rcases hlearnt.get?_cache hfound with hold | ⟨moment, hanswered⟩
      · exact h.caches registry.cache asked found hold
      · exact h.sources id registry hregistry moment asked _ hanswered

theorem Arises.informed (h : Arises orderly session) : session.Informed := by
  induction h with
  | start => exact ⟨fun _ _ hregistry => (nomatch hregistry), fun _ _ _ hfound => nomatch hfound⟩
  | step _ step horderly ih => exact ih.perform horderly.2

theorem Informed.targeted (h : session.Informed)
    (hregistry : OrderedMap.get? session.registries id = some registry) {type : TypeName}
    {fields : ModelFields}
    (hfields : (session.memoryOf registry).fieldsOf registry.source type = .ok fields) :
    fields.Targeted := by
  rw [Memory.fieldsOf_eq_ok, Memory.described] at hfields
  cases hknown : (session.memoryOf registry).cache.fields? type with
  | some known =>
      rw [hknown] at hfields
      cases hfields
      obtain ⟨found, hfound, rfl⟩ := Option.map_eq_some_iff.mp hknown
      exact h.caches registry.cache type.key found hfound
  | none =>
      rw [hknown] at hfields
      exact h.sources id registry hregistry _ _ _ hfields

end Session

/-! ### Agreement -/

theorem FieldFilter.classify_eq_relation_iff {fields : ModelFields} {exclude : List String}
    {field : String} (hexclude : field ∉ exclude) (hpseudo : field ∉ pseudoFields) :
    ({ fields := some fields, exclude : FieldFilter }).classify field = some .relation ↔
      ∃ target, fields.related? field = some target := by
  have hskips : ({ fields := some fields, exclude : FieldFilter }).skips field = false := by
    simp only [skips, List.contains_eq_mem, hpseudo, hexclude, decide_false, Bool.or_self]
  cases hrelated : fields.related? field with
  | none =>
      cases fields.scalars.contains field <;>
        simp [classify, hskips, ModelFields.knows, hrelated]
  | some target => simp [classify, hskips, ModelFields.knows, hrelated]

namespace Session

variable {session : Session} {id : String} {registry : RegistryState}

/-- At every moment of a session, a registry knows a type exactly if it would give its fields,
exactly if it would give a filter, and exactly if it would tell where a field of it leads.  A filter
that it gives says of every name what a new filter would say that is made of the fields it gives
now, and takes a name for a relation exactly if it tells where that leads. -/
theorem perform_lookups_agree (h : Arises orderly session)
    (hregistry : OrderedMap.get? session.registries id = some registry) (type : TypeName)
    (exclude : List String) (field : String) :
    let result := fun request => (session.perform (.request id request)).1.result
    (result (.hasType type) = .ok (.truth true) ↔ session.Returns id (.modelFields type)) ∧
      (result (.hasType type) = .ok (.truth true) ↔
        session.Returns id (.fieldFilter type exclude)) ∧
      (result (.hasType type) = .ok (.truth true) ↔ session.Returns id (.related type field)) ∧
      ∀ issued, result (.fieldFilter type exclude) = .ok (.filter issued) →
        (∃ fields, result (.modelFields type) = .ok (.fields fields) ∧
          ∀ name, issued.filter.classify name =
            ({ fields := some fields, exclude : FieldFilter }).classify name) ∧
        (field ∉ exclude → field ∉ pseudoFields →
          (issued.filter.classify field = some .relation ↔
            ∃ target, result (.related type field) = .ok (.related (some target)) ∧
              target.toDatum ≠ .null)) := by
  intro result
  have haddsOnly : Arises addsOnly session := h.mono fun _ _ => And.left
  have hknown := result_hasType_iff hregistry type
  have hfilter := Registry.fieldFilter_of_matched registry.source (haddsOnly.keyed hregistry)
    (haddsOnly.matched hregistry) type exclude
  refine ⟨?_, ?_, ?_, ?_⟩
  · rw [hknown, returns_iff hregistry rfl, Registry.modelFields_run]
  · rw [hknown, returns_iff hregistry rfl]
    rcases hfilter with ⟨issued, fields, hissued, hfields, -⟩ | ⟨fault, hfailed, hunknown⟩
    · exact ⟨fun _ => ⟨issued, hissued⟩, fun _ => ⟨fields, hfields⟩⟩
    · simp only [hfailed, hunknown, reduceCtorEq, exists_false]
  · rw [hknown, returns_related_iff hregistry]
  · intro given hgiven
    obtain ⟨_, hissued, heq⟩ := (result_perform_eq_ok hregistry rfl).mp hgiven
    cases heq
    rcases hfilter with ⟨issued, fields, hsame, hfields, hsimilar⟩ | ⟨fault, hfailed, -⟩
    · rw [hissued] at hsame
      cases hsame
      refine ⟨⟨fields, (result_modelFields_iff hregistry type fields).mpr hfields, hsimilar⟩,
        fun hexclude hpseudo => ?_⟩
      rw [hsimilar, FieldFilter.classify_eq_relation_iff hexclude hpseudo]
      constructor
      · rintro ⟨target, htarget⟩
        exact ⟨target, (result_related_iff hregistry type field _).mpr ⟨fields, hfields, htarget⟩,
          h.informed.targeted hregistry hfields field target htarget⟩
      · rintro ⟨target, hrelated, -⟩
        obtain ⟨found, hfound, htarget⟩ := (result_related_iff hregistry type field _).mp hrelated
        rw [hfields] at hfound
        cases hfound
        exact ⟨target, htarget⟩
    · rw [hissued] at hfailed
      cases hfailed

/-- Two registries share a cache, in which one has looked up people and somebody has entered
comments.  The source of the first has forgotten people since, and that of the second never knew
anything. -/
def peopleForgotten : Session :=
  [SessionStep.openRegistry "first" Expansion.people (some "shared"),
    .openRegistry "second" (Source.ofTable []) (some "shared"),
    .request "first" (.fieldFilter (.text "Person") ["id"]),
    .putFields "shared" (.text "Comment")
      { scalars := ["text"], relations := [("author", .type (.text "Person"))] },
    .amendSource "first" (.text "Person") none].foldl
      (fun session step => (session.perform step).2) start

theorem arises_peopleForgotten : Arises orderly peopleForgotten := by
  have hpeople : Expansion.people.Targeted := by
    apply Source.targeted_ofTable
    intro entry hentry
    apply ModelFields.targeted_of_relations
    rw [List.mem_cons, List.mem_singleton] at hentry
    rcases hentry with rfl | rfl
    · simp [RelationTarget.toDatum, TypeName.toDatum]
    · simp
  have hnothing : (Source.ofTable []).Targeted := Source.targeted_ofTable (by simp)
  have hcomment : ModelFields.Targeted
      { scalars := ["text"], relations := [("author", .type (.text "Person"))] } :=
    ModelFields.targeted_of_relations (by simp [RelationTarget.toDatum, TypeName.toDatum])
  refine .step (.step (.step (.step (.step .start _ ?_) _ ?_) _ ?_) _ ?_) _ ?_
  · exact ⟨fun _ _ _ h => (nomatch h), hpeople⟩
  · exact ⟨fun _ _ _ h => (nomatch h), hnothing⟩
  · exact ⟨fun _ _ _ h => (nomatch h), trivial⟩
  · refine ⟨fun name type fields h => ?_, hcomment⟩
    cases h
    rfl
  · exact ⟨fun _ _ _ h => (nomatch h), fun _ h => (nomatch h)⟩

/-- The first registry still knows people, and tells what it told when its source did. -/
theorem lookups_agree_peopleForgotten :
    Arises orderly peopleForgotten ∧
      ∃ registry issued target,
        OrderedMap.get? peopleForgotten.registries "first" = some registry ∧
        registry.source.answer registry.asked.length (.text "Person") = .ok none ∧
        (peopleForgotten.perform (.request "first" (.hasType (.text "Person")))).1.result =
          .ok (.truth true) ∧
        peopleForgotten.Returns "first" (.modelFields (.text "Person")) ∧
        peopleForgotten.Returns "first" (.related (.text "Person") "friend") ∧
        (peopleForgotten.perform
          (.request "first" (.fieldFilter (.text "Person") ["id"]))).1.result =
            .ok (.filter issued) ∧
        issued.filter.classify "friend" = some .relation ∧
        (peopleForgotten.perform (.request "first" (.related (.text "Person") "friend"))).1.result =
          .ok (.related (some target)) := by
  obtain ⟨hfields, -, hrelated, hfilter⟩ := perform_lookups_agree arises_peopleForgotten
    (rfl : OrderedMap.get? peopleForgotten.registries "first" = some _) (.text "Person") ["id"]
    "friend"
  obtain ⟨-, hrelation⟩ := hfilter _ rfl
  obtain ⟨target, htarget, -⟩ := (hrelation (by decide) (by decide)).mp rfl
  exact ⟨arises_peopleForgotten, _, _, target, rfl, rfl, rfl, hfields.mp rfl, hrelated.mp rfl, rfl,
    rfl, htarget⟩

end Session

end QueryProjection
