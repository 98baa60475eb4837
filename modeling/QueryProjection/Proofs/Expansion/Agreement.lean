import QueryProjection.Proofs.Expansion.Reentry
import QueryProjection.Proofs.Registry.Faithful

/-!
# Walks from memories that tell the same

Two memories that tell the same of every type may remember different things, and so a walk may
ask its source in one case and not in the other, be given a filter that lists the same names in
another order, and have more or less room for nested fragments.  None of this shows in what comes
of the walk (`agrees_compileFields`): the result and the notices are the same from either memory,
and what is remembered afterwards tells the same again.  Memories that are faithful to one view
tell the same (`telling_faithful`).

The room takes an argument.  How deep fragments may nest depends on how much is remembered, but
the entries that are being expanded at a time are distinct, and each is among the entries that
the room was measured by.  So there is always room for one more (`Spare`), in both walks.
-/

namespace QueryProjection

/-- If types are looked up at all, what is remembered is faithful to the view. -/
def Context.Faithful (context : Context) (view : TypeName → Except Fault (Option ModelFields))
    (memory : Memory) : Prop :=
  ∀ target, context.options.target = some target → memory.Faithful target.source view

theorem Context.faithful_of_target {context : Context} {target : Target}
    (htarget : context.options.target = some target)
    (view : TypeName → Except Fault (Option ModelFields)) :
    context.Faithful view = Memory.Faithful target.source view := by
  funext memory
  simp only [Faithful, htarget, Option.some.injEq, forall_eq']

namespace Expansion

/-! ### Agreement -/

/-- Two outcomes with related values or the same fault, and the same notices. -/
structure Agreeing (invariant : Memory → Prop) {α : Type} (values : α → α → Prop)
    (first second : Outcome α) : Prop where
  ends : Likeness.exact.Ends values first.result second.result
  notices : first.notices = second.notices
  keeps : invariant first.memory
  keeps' : invariant second.memory

/-- From memories with a property, two computations agree. -/
def Agrees (invariant : Memory → Prop) {α : Type} (values : α → α → Prop)
    (first second : Compile α) : Prop :=
  ∀ memory memory', invariant memory → invariant memory' →
    Agreeing invariant values (first memory) (second memory')

namespace Agrees

variable {invariant : Memory → Prop} {α β : Type} {values : α → α → Prop}
  {values' : β → β → Prop}

theorem done {a b : α} (h : values a b) : Agrees invariant values (pure a) (pure b) :=
  fun _ _ hm hm' => ⟨.ok h, rfl, hm, hm'⟩

theorem step {first first' : Compile α} {second second' : α → Compile β}
    (h : Agrees invariant values first first')
    (hsteps : ∀ a b, values a b → Agrees invariant values' (second a) (second' b)) :
    Agrees invariant values' (first >>= second) (first' >>= second') := by
  intro memory memory' hm hm'
  obtain ⟨hends, hnotices, hkeeps, hkeeps'⟩ := h memory memory' hm hm'
  generalize hr : (first memory).result = result at hends
  generalize hr' : (first' memory').result = result' at hends
  cases hends with
  | error hfaults =>
      rw [Compile.bind_of_error hr, Compile.bind_of_error hr']
      exact ⟨.error hfaults, hnotices, hkeeps, hkeeps'⟩
  | ok hvalues =>
      have hafter := hsteps _ _ hvalues _ _ hkeeps hkeeps'
      rw [Compile.bind_of_ok hr, Compile.bind_of_ok hr']
      exact ⟨hafter.ends, by rw [hnotices, hafter.notices], hafter.keeps, hafter.keeps'⟩

theorem mono {values' : α → α → Prop} {first first' : Compile α}
    (h : Agrees invariant values first first') (himp : ∀ a b, values a b → values' a b) :
    Agrees invariant values' first first' := by
  intro memory memory' hm hm'
  obtain ⟨hends, hnotices, hkeeps, hkeeps'⟩ := h memory memory' hm hm'
  refine ⟨?_, hnotices, hkeeps, hkeeps'⟩
  generalize (first memory).result = result at hends
  generalize (first' memory').result = result' at hends
  cases hends with
  | ok hvalues => exact .ok (himp _ _ hvalues)
  | error hfaults => exact .error hfaults

/-- What succeeds once succeeds whenever it is tried. -/
theorem always {first : Compile α} (h : Agrees invariant values first first) :
    Agrees invariant (fun a b => values a b ∧ ∀ memory, invariant memory →
      ∃ found, (first memory).result = .ok found ∧ values a found) first first := by
  intro memory memory' hm hm'
  obtain ⟨hends, hnotices, hkeeps, hkeeps'⟩ := h memory memory' hm hm'
  refine ⟨?_, hnotices, hkeeps, hkeeps'⟩
  generalize hr : (first memory).result = result at hends
  generalize (first memory').result = result' at hends
  cases hends with
  | error hfaults => exact .error hfaults
  | ok hvalues =>
      refine .ok ⟨hvalues, fun other hother => ?_⟩
      have hothers := (h memory other hm hother).ends
      rw [hr] at hothers
      generalize (first other).result = found at hothers
      cases hothers with
      | ok hfound => exact ⟨_, rfl, hfound⟩

theorem ofLogged (computation : Logged α) :
    Agrees invariant Eq (Compile.ofLogged computation) (Compile.ofLogged computation) :=
  fun _ _ hm hm' => ⟨Likeness.lawful_exact.ends_refl (fun _ => rfl) _, rfl, hm, hm'⟩

theorem ofLookup {lookup : Lookup α}
    (hkeeps : ∀ memory, invariant memory → invariant (Compile.ofLookup lookup memory).memory)
    (hends : ∀ memory memory', invariant memory → invariant memory' →
      Likeness.exact.Ends values (lookup.run memory).1 (lookup.run memory').1) :
    Agrees invariant values (Compile.ofLookup lookup) (Compile.ofLookup lookup) :=
  fun memory memory' hm hm' =>
    ⟨hends memory memory' hm hm', rfl, hkeeps memory hm, hkeeps memory' hm'⟩

end Agrees

/-- What is known of a fragment that is found under a name is `defined`. -/
def agreement (invariant : Memory → Prop) (defined : String → Fragment → Prop) :
    Correspondence where
  types := Eq
  filters := FieldFilter.Similar
  similar _ _ h := h
  defined := defined
  rel := Agrees invariant
  done := Agrees.done
  step := Agrees.step

theorem plain_agreement {invariant : Memory → Prop} {defined : String → Fragment → Prop} :
    (agreement invariant defined).Plain where
  types := Iff.rfl
  filters _ _ := rfl
  logged computation _ := .ofLogged computation

/-! ### Memories that tell the same -/

/-- Memories with a property tell the same of every type, and look-ups keep the property. -/
structure Telling (source : Source) (invariant : Memory → Prop) : Prop where
  described : ∀ {memory memory'}, invariant memory → invariant memory' → ∀ type,
    memory.described source type = memory'.described source type
  filterOf : ∀ {memory memory'}, invariant memory → invariant memory' → ∀ type exclude,
    Likeness.exact.Ends FieldFilter.Similar (memory.filterOf source type exclude)
      (memory'.filterOf source type exclude)
  kept : (Law.ofInvariant invariant).Lookups source

section Faithful

variable {source : Source} {view : TypeName → Except Fault (Option ModelFields)}

theorem ends_filterOf {memory memory' : Memory} (h : memory.Faithful source view)
    (h' : memory'.Faithful source view) (type : TypeName) (exclude : List String) :
    Likeness.exact.Ends FieldFilter.Similar (memory.filterOf source type exclude)
      (memory'.filterOf source type exclude) := by
  rcases h.filterOf type exclude with
    ⟨filter, fields, hfilter, hview, hfields, hnames⟩ | ⟨fault, hfilter, hfault⟩
  · rcases h'.filterOf type exclude with
      ⟨filter', fields', hfilter', hview', hfields', hnames'⟩ | ⟨fault, -, hfault⟩
    -- a failure on one side alone would contradict the view of the type
    · rw [hfilter, hfilter']
      rw [hview] at hview'
      cases hview'
      exact .ok (FieldFilter.similar_of_names (hfields.trans hfields'.symm) fun name =>
        (hnames name).trans (hnames' name).symm)
    · rw [Memory.fieldsOf_eq_ok.mpr ((h'.described type).trans hview)] at hfault
      cases hfault
  · rcases h'.filterOf type exclude with
      ⟨filter', fields', -, hview', -⟩ | ⟨fault', hfilter', hfault'⟩
    · rw [Memory.fieldsOf_eq_ok.mpr ((h.described type).trans hview')] at hfault
      cases hfault
    · rw [hfilter, hfilter']
      rw [h.fieldsOf_eq h' type, hfault'] at hfault
      exact .error (Except.error.inj hfault).symm

theorem telling_faithful (hsteady : source.Steady) :
    Telling source (Memory.Faithful source view) where
  described h h' type := (h.described type).trans (h'.described type).symm
  filterOf h h' type exclude := ends_filterOf h h' type exclude
  kept := lookups_faithful hsteady view

end Faithful

/-- A memory tells the same as another, whatever that one remembers. -/
structure Echoes (source : Source) (start memory : Memory) : Prop where
  described : ∀ type, memory.described source type = start.described source type
  filterOf : ∀ type exclude, Likeness.exact.Ends FieldFilter.Similar
    (start.filterOf source type exclude) (memory.filterOf source type exclude)

section Echoes

variable {source : Source} {start memory after : Memory}

theorem ends_similar_refl (result : Except Fault FieldFilter) :
    Likeness.exact.Ends FieldFilter.Similar result result :=
  Likeness.lawful_exact.ends_refl (fun _ _ => rfl) result

theorem ends_of_ends {first second third : Except Fault FieldFilter}
    (h : Likeness.exact.Ends FieldFilter.Similar first second)
    (h' : Likeness.exact.Ends FieldFilter.Similar first third) :
    Likeness.exact.Ends FieldFilter.Similar second third := by
  cases h with
  | ok hsimilar =>
      cases h' with
      | ok hsimilar' => exact .ok fun name => (hsimilar name).symm.trans (hsimilar' name)
  | error hfault =>
      cases h' with
      | error hfault' => exact .error (hfault.symm.trans hfault')

theorem ends_of_similar {result : Except Fault FieldFilter} {filter filter' : FieldFilter}
    (h : Likeness.exact.Ends FieldFilter.Similar result (.ok filter))
    (hsimilar : filter.Similar filter') :
    Likeness.exact.Ends FieldFilter.Similar result (.ok filter') := by
  cases h with
  | ok hfirst => exact .ok fun name => (hfirst name).trans (hsimilar name)

theorem Echoes.refl (start : Memory) : Echoes source start start :=
  ⟨fun _ => rfl, fun _ _ => ends_similar_refl _⟩

theorem Echoes.of_alike (h : Echoes source start memory)
    (halike : ∀ exclude, Memory.Alike source exclude after memory) : Echoes source start after where
  described type := ((halike []).described type).trans (h.described type)
  filterOf type exclude := by
    rw [(halike exclude).filterOf]
    exact h.filterOf type exclude

/-- A new filter leaves out the same names as any other that it is given for later. -/
theorem Echoes.issued (h : Echoes source start memory) {type : TypeName} {fields : ModelFields}
    (hfields : memory.fieldsOf source type = .ok fields) (exclude : List String)
    (serial next : Nat) :
    Echoes source start
      { memory with
        filters := memory.filters ++
          [({ type := type.key, exclude },
            { serial, filter := { fields := some fields, exclude } })]
        nextSerial := next } where
  described := h.described
  filterOf other names := by
    have hother := h.filterOf other names
    simp only [Memory.filterOf, Memory.filter?_issued] at hother ⊢
    cases hfound : memory.filter? { type := other.key, exclude := names } with
    | some issued =>
        rw [hfound] at hother
        exact hother
    | none =>
        rw [hfound] at hother
        by_cases hsame : FilterKey.same { type := type.key, exclude }
            { type := other.key, exclude := names } = true
        · obtain ⟨hkey, hnames⟩ := Memory.eq_of_same hsame
          have hdescribed := Memory.fieldsOf_eq_ok.mp hfields
          rw [Memory.described_of_key hkey] at hdescribed
          rw [Memory.fieldsOf_eq_ok.mpr hdescribed] at hother
          simp only [hsame]
          exact ends_of_similar hother
            (FieldFilter.similar_of_names rfl fun name => (hnames name).symm)
        · simp only [hsame]
          exact hother

theorem Echoes.fieldFilter (h : Echoes source start memory) (hsteady : source.Steady)
    (type : TypeName) (exclude : List String) :
    Echoes source start ((Registry.fieldFilter source type exclude).run memory).2 := by
  rw [Registry.fieldFilter_run]
  cases memory.filter? { type := type.key, exclude } with
  | some issued => exact h
  | none =>
      have halike : ∀ names, Memory.Alike source names
          ((Registry.modelFields source type).run memory).2 memory :=
        fun _ => Registry.alike_modelFields hsteady type memory
      cases hfields : memory.fieldsOf source type with
      | error fault => exact h.of_alike halike
      | ok fields =>
          rw [← (halike []).fieldsOf] at hfields
          exact (h.of_alike halike).issued hfields exclude _ _

theorem telling_echoes (hsteady : source.Steady) (start : Memory) :
    Telling source (Echoes source start) where
  described h h' type := (h.described type).trans (h'.described type).symm
  filterOf h h' type exclude := ends_of_ends (h.filterOf type exclude) (h'.filterOf type exclude)
  kept :=
    { hasType := fun type memory h =>
        h.of_alike fun _ => Registry.alike_hasType hsteady type memory
      modelFields := fun type memory h =>
        h.of_alike fun _ => Registry.alike_modelFields hsteady type memory
      fieldFilter := fun type exclude _ h => h.fieldFilter hsteady type exclude }

end Echoes

def SimilarIssued (first second : IssuedFilter) : Prop := first.filter.Similar second.filter

theorem looks_agreement {source : Source} {invariant : Memory → Prop}
    {defined : String → Fragment → Prop} (htelling : Telling source invariant) :
    (agreement invariant defined).Looks SimilarIssued source source where
  filters h := h
  types := rfl
  hasType type := by
    refine .ofLookup (htelling.kept.hasType type) fun memory memory' h h' => ?_
    rw [Registry.hasType_run, Registry.hasType_run, htelling.described h h']
    exact Likeness.lawful_exact.ends_refl (fun _ => rfl) _
  modelFields type := by
    refine .ofLookup (htelling.kept.modelFields type) fun memory memory' h h' => ?_
    rw [Registry.modelFields_run_fst, Registry.modelFields_run_fst, Memory.fieldsOf,
      Memory.fieldsOf, htelling.described h h']
    exact Likeness.lawful_exact.ends_refl (fun _ => rfl) _
  fieldFilter type exclude := by
    refine .ofLookup (htelling.kept.fieldFilter type exclude) fun memory memory' h h' => ?_
    have hends := htelling.filterOf h h' type exclude
    rw [← Registry.filter_fieldFilter, ← Registry.filter_fieldFilter] at hends
    exact hends.of_map

end Expansion

/-- If types are looked up at all, memories with the property tell the same of them. -/
def Context.Telling (context : Context) (invariant : Memory → Prop) : Prop :=
  ∀ target, context.options.target = some target → Expansion.Telling target.source invariant

theorem Context.telling_faithful {context : Context} (hsteady : context.Steady)
    (view : TypeName → Except Fault (Option ModelFields)) :
    context.Telling (context.Faithful view) := by
  intro target htarget
  rw [Context.faithful_of_target htarget]
  exact Expansion.telling_faithful (hsteady target htarget)

namespace Expansion

/-! ### Walks -/

section Walks

variable {context : Context} {invariant : Memory → Prop} (htelling : context.Telling invariant)

include htelling

theorem sourced_agreement (defined : String → Fragment → Prop) :
    (agreement invariant defined).Sourced SimilarIssued context context :=
  .self fun target htarget => looks_agreement (htelling target htarget)

theorem contexts_agreement :
    (agreement invariant fun name fragment =>
      context.definition? name = some fragment).Contexts context context :=
  (sourced_agreement htelling _).contexts plain_agreement fun _ _ hdefined => hdefined

/-- A place that has a filter has one whatever is remembered. -/
def HasFilter (context : Context) (invariant : Memory → Prop) (type : Option TypeName) : Prop :=
  ∀ memory, invariant memory → ∃ filter, (context.outlook memory).filterAt type = .ok filter

variable (hsteady : context.Steady)

include hsteady

theorem agrees_filterAt (type : Option TypeName) :
    Agrees invariant (fun filter filter' => filter.Similar filter' ∧ HasFilter context invariant type)
      (context.filterAt type) (context.filterAt type) := by
  have hagrees : Agrees invariant FieldFilter.Similar (context.filterAt type)
      (context.filterAt type) := (contexts_agreement htelling).filterAt rfl
  refine hagrees.always.mono fun filter filter' ⟨hsimilar, halways⟩ => ⟨hsimilar, ?_⟩
  intro memory hm
  obtain ⟨found, hfound, -⟩ := halways memory hm
  exact ⟨found, ((Context.finds_filterAt hsteady type).result memory).symm.trans hfound⟩

/-- As long as there is room, it does not matter how much. -/
theorem agrees_enterWithin {target : Target} (htarget : context.options.target = some target)
    {memory memory' : Memory} (hm : invariant memory) (hm' : invariant memory') {depth : Nat} :
    ∀ {depth' : Nat} {active : List Entry}, Spare context memory depth active →
      Spare context memory' depth' active →
      (agreement invariant fun name fragment =>
        context.definition? name = some fragment).Enters
          (enterWithin context depth active) (enterWithin context depth' active) := by
  induction depth with
  | zero => exact fun hspare _ => absurd rfl hspare.depth_ne_zero
  | succ depth ih =>
      intro depth' active hspare hspare'
      obtain ⟨less, rfl⟩ := Nat.exists_eq_succ_of_ne_zero hspare'.depth_ne_zero
      rintro name fragment type _ hdefined rfl
      rw [enterWithin_succ, enterWithin_succ]
      split
      · exact plain_agreement.stop fun _ hfault => nomatch hfault
      · rename_i hcontains
        -- there is room for one more on either side, as the entry is new to the active ones and
        -- among those that both rooms were measured by
        refine (agrees_filterAt htelling hsteady type).step fun inner inner' ⟨hsimilar, hfilter⟩ => ?_
        have hplaced : Placed context type := fun hnone => by
          rw [htarget] at hnone
          cases hnone
        have hentry := mem_entries hdefined hplaced (hfilter memory hm).choose_spec
        have hentry' := mem_entries hdefined hplaced (hfilter memory' hm').choose_spec
        exact Correspondence.writeAll (contexts_agreement htelling)
          (ih (hspare.cons hcontains hentry) (hspare'.cons hcontains hentry'))
          fragment.selections rfl hsimilar []

/-- What fragments are entered with may be measured in either memory. -/
theorem agrees_enters {memory memory' : Memory} (hm : invariant memory) (hm' : invariant memory') :
    (agreement invariant fun name fragment =>
      context.definition? name = some fragment).Enters
        (enterWithin context (budget context memory) [])
        (enterWithin context (budget context memory') []) := by
  cases htarget : context.options.target with
  | some target =>
      exact agrees_enterWithin htelling hsteady htarget hm hm' (.start context memory)
        (.start context memory')
  | none =>
      -- without models the room is the same
      have hbudget : budget context memory = budget context memory' := by
        simp only [budget, htarget]
      rw [hbudget]
      exact Correspondence.enterWithin (contexts_agreement htelling)
        (fun ht => congrArg (Option.map TypeName.key) ht)
        (fun name ht => ht ▸ plain_agreement.stop fun _ hfault => by cases hfault) _ []

omit hsteady htelling in
theorem agrees_remembered :
    Agrees invariant (fun memory memory' => invariant memory ∧ invariant memory')
      Compile.remembered Compile.remembered :=
  fun _ _ hm hm' => ⟨.ok ⟨hm, hm'⟩, rfl, hm, hm'⟩

theorem agrees_compileSelections (selections : Option (List Selection)) :
    Agrees invariant Eq (compileSelections context selections)
      (compileSelections context selections) := by
  refine (sourced_agreement htelling fun _ _ => True).checkRoot.step fun _ _ _ => ?_
  refine agrees_remembered.step fun memory memory' ⟨hm, hm'⟩ => ?_
  exact Correspondence.selectionSet (contexts_agreement htelling)
    (agrees_enters htelling hsteady hm hm') rfl (selections.getD [])

/-- Compilations from memories that tell the same come to the same. -/
theorem agrees_compileFields (nodes : List Field) :
    Agrees invariant Eq (compileFields context nodes) (compileFields context nodes) :=
  Correspondence.compileFields_of_compileSelections (R := agreement invariant fun _ _ => True)
    (agrees_compileSelections htelling hsteady) nodes

end Walks

end Expansion

end QueryProjection
