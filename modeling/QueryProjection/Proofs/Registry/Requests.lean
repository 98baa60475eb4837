import QueryProjection.Proofs.Expansion.Lookups

/-!
# What a request may do to a registry

Whatever is asked of a registry, its memory changes through look-ups alone.  So a property of
outcomes that holds of the look-ups, and is handed on from step to step, holds of every request,
a whole compilation included, and of all that happens on the way (`Law.Lookups.answer`,
`Law.along_compilations`).  It holds whether the request succeeds or fails.  Where a property holds
of the look-ups of some filters only, it holds of the requests that need no others
(`Law.Describes.answer`).
-/

namespace QueryProjection

/-- A property of outcomes, relative to the memory from which they came, that is handed on from
step to step. -/
structure Law where
  holds : {α : Type} → Memory → Outcome α → Prop
  still : ∀ {α : Type} {memory : Memory} {outcome : Outcome α}, outcome.memory = memory →
    (∀ type, outcome.result ≠ .error (.unknownType type)) → holds memory outcome
  step : ∀ {α β : Type} {first : Compile α} {second : α → Compile β} {memory : Memory},
    holds memory (first memory) →
    (∀ value, (first memory).result = .ok value →
      holds (first memory).memory (second value (first memory).memory)) →
    holds memory ((first >>= second) memory)

namespace Law

def ofRelation (rel : Memory → Memory → Prop) (refl : ∀ memory, rel memory memory)
    (trans : ∀ {first second third}, rel first second → rel second third → rel first third) :
    Law where
  holds memory outcome := rel memory outcome.memory
  still hmemory _ := hmemory ▸ refl _
  step := by
    intro α β first second memory hfirst hsecond
    cases hr : (first memory).result with
    | error fault =>
        rw [Compile.bind_of_error hr]
        exact hfirst
    | ok value =>
        rw [Compile.bind_of_ok hr]
        exact trans hfirst (hsecond value hr)

def ofInvariant (invariant : Memory → Prop) : Law :=
  ofRelation (fun memory after => invariant memory → invariant after) (fun _ h => h)
    fun hfirst hsecond h => hsecond (hfirst h)

variable (law : Law)

structure Describes (source : Source) : Prop where
  hasType : ∀ type memory,
    law.holds memory (Compile.ofLookup (Registry.hasType source type) memory)
  modelFields : ∀ type memory,
    law.holds memory (Compile.ofLookup (Registry.modelFields source type) memory)

/-- The law holds of the three look-ups to which all others come down. -/
structure Lookups (source : Source) : Prop extends law.Describes source where
  fieldFilter : ∀ type exclude memory,
    law.holds memory (Compile.ofLookup (Registry.fieldFilter source type exclude) memory)

/-- The law holds of the first computation.  Of the second no more is asked than that there are
values for those of the first to correspond to. -/
def Along {α : Type} (values : α → α → Prop) (computation _beside : Compile α) : Prop :=
  ∀ memory, law.holds memory (computation memory) ∧
    ∀ a, (computation memory).result = .ok a → ∃ b, values a b

namespace Along

variable {law} {α β : Type} {values : α → α → Prop} {values' : β → β → Prop}

theorem of_holds {computation : Compile α}
    (h : ∀ memory, law.holds memory (computation memory)) :
    law.Along Eq computation computation :=
  fun memory => ⟨h memory, fun a _ => ⟨a, rfl⟩⟩

theorem done {a b : α} (h : values a b) : law.Along values (pure a) (pure b) := by
  refine fun memory => ⟨law.still rfl fun type hfault => ?_, fun value hvalue => ?_⟩
  · cases hfault
  · cases hvalue
    exact ⟨b, h⟩

theorem step {first first' : Compile α} {second second' : α → Compile β}
    (h : law.Along values first first')
    (hsteps : ∀ a b, values a b → law.Along values' (second a) (second' b)) :
    law.Along values' (first >>= second) (first' >>= second') := by
  intro memory
  obtain ⟨hfirst, hvalues⟩ := h memory
  refine ⟨law.step hfirst fun a ha => ?_, fun value hvalue => ?_⟩
  · obtain ⟨b, hab⟩ := hvalues a ha
    exact (hsteps a b hab _).1
  · cases hr : (first memory).result with
    | error fault =>
        rw [Compile.bind_of_error hr] at hvalue
        cases hvalue
    | ok a =>
        obtain ⟨b, hab⟩ := hvalues a hr
        rw [Compile.bind_of_ok hr] at hvalue
        exact (hsteps a b hab _).2 value hvalue

theorem ofLogged {computation : Logged α}
    (h : ∀ type, computation.result ≠ .error (.unknownType type)) :
    law.Along Eq (Compile.ofLogged computation) (Compile.ofLogged computation) :=
  of_holds fun _ => law.still rfl h

end Along

def correspondence : Expansion.Correspondence where
  types := Eq
  rel := law.Along
  done := Along.done
  step := Along.step

theorem plain_correspondence : law.correspondence.Plain where
  types := Iff.rfl
  filters _ := rfl
  logged _ := Along.ofLogged

variable {law}

theorem Describes.describes {source : Source} (h : law.Describes source) :
    law.correspondence.Describes source source where
  types := rfl
  hasType type := .of_holds (h.hasType type)
  modelFields type := .of_holds (h.modelFields type)

/-- The law holds along a compilation, if it holds of the look-ups about types and of those of
filters that leave out what the compilation does. -/
theorem along_filters {context : Context}
    (h : ∀ target, context.options.target = some target → law.Describes target.source)
    (hfilters : ∀ target, context.options.target = some target → ∀ type memory,
      law.holds memory (Compile.ofLookup
        (Registry.fieldFilter target.source type context.options.exclude) memory)) :
    law.correspondence.Compilations context context := by
  have hdescribed : law.correspondence.Described context context :=
    .self fun target htarget => (h target htarget).describes
  refine hdescribed.compilations law.plain_correspondence (fun type => ?_) (fun _ _ => trivial)
    (.of_holds fun _ => law.still rfl fun _ hfault => nomatch hfault)
  unfold Context.filterAt
  cases htarget : context.options.target with
  | none => exact Along.done rfl
  | some target =>
      cases type with
      | none => exact Along.done rfl
      | some name =>
          refine Expansion.Correspondence.step_eq
            (Along.of_holds (hfilters target htarget name)) fun issued => ?_
          exact Along.done rfl

/-- The law holds along every compilation, if it holds of the look-ups. -/
theorem along_compilations {context : Context}
    (h : ∀ target, context.options.target = some target → law.Lookups target.source) :
    law.correspondence.Compilations context context :=
  along_filters (fun target htarget => (h target htarget).toDescribes)
    fun target htarget type => (h target htarget).fieldFilter type context.options.exclude

end Law

/-- A request may come to ask for the filter of a type that leaves out some names. -/
def Request.NeedsFilter (request : Request) (type : TypeName) (exclude : List String) : Prop :=
  request = .fieldFilter type exclude ∨ ∃ model strict fragments bindings nodes,
    request = .compile (.names exclude) model strict fragments bindings nodes

namespace Law

variable {law : Law}

/-- The law holds of a request, if it holds of the look-ups about types and of those of filters
that the request may need. -/
theorem Describes.answer {source : Source} (h : law.Describes source) {request : Request}
    (hfilters : ∀ type exclude, request.NeedsFilter type exclude → ∀ memory,
      law.holds memory (Compile.ofLookup (Registry.fieldFilter source type exclude) memory))
    {compile : Compile Answer} (hanswer : Session.answer source request = .ok compile)
    (memory : Memory) : law.holds memory (compile memory) := by
  have hlooks := h.describes
  have halong : ∀ {α : Type} {first : Compile α} {f : α → Answer}, law.Along Eq first first →
      law.holds memory ((do return f (← first) : Compile Answer) memory) := by
    intro α first f hfirst
    exact law.step (hfirst memory).1 fun _ _ => law.still rfl fun _ hfault => nomatch hfault
  cases request with
  | hasType type =>
      cases hanswer
      exact halong (hlooks.hasType type)
  | modelFields type =>
      cases hanswer
      exact halong (hlooks.modelFields type)
  | related type field =>
      cases hanswer
      exact halong (hlooks.related type field)
  | fieldFilter type exclude =>
      cases hanswer
      exact halong (Along.of_holds (hfilters type exclude (Or.inl rfl)))
  | compile exclude model strict fragments bindings nodes =>
      cases model with
      | none => cases hanswer
      | some model =>
          cases exclude with
          | text value => cases hanswer
          | names names =>
              cases hanswer
              refine halong ((along_filters ?_ ?_).compileFields nodes)
              · rintro target ⟨⟩
                exact h
              · rintro target ⟨⟩ type
                exact hfilters type names (Or.inr ⟨_, _, _, _, _, rfl⟩)

/-- The law holds of every request, if it holds of the look-ups. -/
theorem Lookups.answer {source : Source} (h : law.Lookups source) {request : Request}
    {compile : Compile Answer} (hanswer : Session.answer source request = .ok compile)
    (memory : Memory) : law.holds memory (compile memory) :=
  h.toDescribes.answer (fun type exclude _ => h.fieldFilter type exclude) hanswer memory

end Law

end QueryProjection
