import QueryProjection.Proofs.Expansion.Lookups
import QueryProjection.Proofs.Expansion.Reentry

/-!
# Nothing is left out in silence

A compilation walks over fields and fragments, and it reports two things of its own: that a field
is left out, and that a type condition is no known model.  Told apart from all that values and
undefined spreads have to report, these notices are the walk itself, seen through a sieve.  `Walks`
is that walk, with what it comes to in the order in which it comes to it, and the names of the
fields that are kept at the place where it started.  Each visit gives one notice or none, and the
notices of a compilation are those of its visits, in order (`compileSelections_reports`).

The source may answer as it likes, and what it answered before is remembered, so a walk goes from
memory to memory.  That is why a type may be known at one visit and unknown at another.
-/

namespace QueryProjection

/-- The notices that a walk makes by itself. -/
def Notice.ofWalk (notice : Notice) : Bool := notice.channel == .selections

def Notice.isDrop : Notice → Bool
  | .fieldDropped _ _ => true
  | .conditionUnknown _ _ | .fragmentUndefined _ | .variableUnbound _ | .valueUnrecognized _
  | .selectionIgnored _ => false

theorem Notice.countP_isDrop (notices : List Notice) :
    (notices.filter ofWalk).countP isDrop = notices.countP isDrop := by
  rw [List.countP_filter]
  congr 1
  funext notice
  cases notice <;> rfl

/-! ### Steps that return -/

namespace Compile

variable {α β : Type} {memory after : Memory} {notices : List Notice}

/-- A step ends with a value, and with what it has reported and what is remembered then. -/
def Returns (step : Compile α) (memory : Memory) (value : α) (notices : List Notice)
    (after : Memory) : Prop :=
  step memory = { result := .ok value, notices, memory := after }

theorem Returns.unique {step : Compile α} {value value' : α} {notices' : List Notice}
    {after' : Memory} (h : step.Returns memory value notices after)
    (h' : step.Returns memory value' notices' after') :
    value = value' ∧ notices = notices' ∧ after = after' := by
  have hsame := Eq.trans h.symm h'
  rw [Outcome.mk.injEq, Except.ok.injEq] at hsame
  exact hsame

theorem returns_of_ok {step : Compile α} {value : α} (h : (step memory).result = .ok value) :
    step.Returns memory value (step memory).notices (step memory).memory := by
  unfold Returns
  rw [← h]

theorem returns_pure {value found : α} :
    (pure value : Compile α).Returns memory found notices after ↔
      found = value ∧ notices = [] ∧ after = memory := by
  constructor
  · rintro ⟨⟩
    exact ⟨rfl, rfl, rfl⟩
  · rintro ⟨rfl, rfl, rfl⟩
    rfl

theorem returns_note {notice : Notice} {found : Unit} :
    (note notice).Returns memory found notices after ↔ notices = [notice] ∧ after = memory := by
  constructor
  · rintro ⟨⟩
    exact ⟨rfl, rfl⟩
  · rintro ⟨rfl, rfl⟩
    rfl

theorem returns_ofLookup {lookup : Lookup α} {value : α} :
    (ofLookup lookup).Returns memory value notices after ↔
      lookup.run memory = (.ok value, after) ∧ notices = [] := by
  constructor
  · intro h
    cases hrun : lookup.run memory with
    | mk result between =>
        rw [Returns, ofLookup_apply, hrun] at h
        cases h
        exact ⟨rfl, rfl⟩
  · rintro ⟨hrun, rfl⟩
    rw [Returns, ofLookup_apply, hrun]

theorem returns_ofLogged {computation : Logged α} {value : α} :
    (ofLogged computation).Returns memory value notices after ↔
      computation = { result := .ok value, notices } ∧ after = memory := by
  obtain ⟨result, reported⟩ := computation
  constructor
  · rintro ⟨⟩
    exact ⟨rfl, rfl⟩
  · rintro ⟨⟨⟩, rfl⟩
    rfl

theorem not_returns_stop {fault : Fault} {value : α} :
    ¬ (stop fault : Compile α).Returns memory value notices after :=
  fun h => nomatch congrArg Outcome.result h

theorem returns_bind {first : Compile α} {second : α → Compile β} {value : β} :
    (first >>= second).Returns memory value notices after ↔
      ∃ found earlier between later, first.Returns memory found earlier between ∧
        (second found).Returns between value later after ∧ notices = earlier ++ later := by
  constructor
  · intro h
    cases hfirst : (first memory).result with
    | error fault =>
        rw [Returns, bind_of_error hfirst] at h
        cases h
    | ok found =>
        refine ⟨found, _, _, (second found (first memory).memory).notices,
          returns_of_ok hfirst, ?_⟩
        rw [Returns, bind_of_ok hfirst, Outcome.mk.injEq] at h
        obtain ⟨hresult, hnotices, hmemory⟩ := h
        have hsecond := returns_of_ok hresult
        rw [hmemory] at hsecond
        exact ⟨hsecond, hnotices.symm⟩
  · rintro ⟨found, earlier, between, later, hfirst, hsecond, rfl⟩
    have hok : (first memory).result = .ok found := by rw [hfirst]
    rw [Returns, bind_of_ok hok, hfirst]
    simp only
    rw [hsecond]

end Compile

/-! ### What values have to report -/

def noticesAmong (sort : Notice → Prop) : LoggedRelation where
  rel first _ := ∀ notice ∈ first.notices, sort notice
  done := by
    intro α value notice hmem
    cases hmem
  step := by
    intro α β first first' second second' h hsteps notice hmem
    obtain ⟨result, notices⟩ := first
    cases result with
    | error fault => exact h notice hmem
    | ok value =>
        rcases List.mem_append.mp hmem with hfirst | hsecond
        · exact h notice hfirst
        · exact hsteps value notice hsecond

/-- Converting values, nothing is reported that a walk reports. -/
theorem ofWalk_forwardArguments (given : List Argument) (bindings : Option Bindings)
    (strict : Bool) (forwarded : List String) :
    ∀ notice ∈ (forwardArguments given bindings strict forwarded).notices,
      notice.ofWalk = false := by
  have hleaves : (noticesAmong fun notice => notice.ofWalk = false).Leaves bindings bindings strict
      strict fun _ => True := by
    have hnone : ∀ {α : Type} {result : Except Fault α},
        (noticesAmong fun notice => notice.ofWalk = false).rel { result, notices := [] }
          { result, notices := [] } := by
      intro α result notice hmem
      cases hmem
    have hone : ∀ {α : Type} {result : Except Fault α} {reported : Notice},
        reported.ofWalk = false → (noticesAmong fun notice => notice.ofWalk = false).rel
          { result, notices := [reported] } { result, notices := [reported] } := by
      intro α result reported hreported notice hmem
      rw [List.mem_singleton.mp hmem]
      exact hreported
    refine ⟨fun name _ => ?_, fun numeral _ => ?_, fun kind _ => ?_⟩
    · unfold resolveVariable
      cases bindings.bind fun table => OrderedMap.get? table name with
      | some value => exact hnone
      | none =>
          cases strict with
          | true => exact hnone
          | false => exact hone rfl
    · unfold convertInt
      by_cases hlong : (numeral.toList.filter Char.isDigit).length > intDigitLimit
      · rw [if_pos hlong]
        exact hnone
      · rw [if_neg hlong]
        exact hnone
    · simp only [Literal.convert]
      cases strict with
      | true => exact hnone
      | false => exact hone rfl
  exact hleaves.forwardOver forwarded given (fun _ _ _ _ _ => trivial) []

namespace OrderedMap

variable {κ : Type w} {α : Type u} [DecidableEq κ] {base update : OrderedMap κ α}

theorem keys_merge_of_nodup (hbase : (keys base).Nodup) :
    keys (merge base update) = (keys base ++ keys update).eraseDups := by
  have hsame : merge base update = ofList (base ++ update) := by
    rw [ofList, merge_append, ← ofList, ofList_of_nodup hbase]
  rw [hsame, keys_ofList, List.map_append]
  rfl

/-- The keys of what is merged, in the order in which they first appear. -/
theorem keys_merge {known names : List κ} (hbase : keys base = known.eraseDups)
    (hupdate : keys update = names.eraseDups) :
    keys (merge base update) = (known ++ names).eraseDups := by
  -- the same is true of tables of which nothing but the keys matters
  let table : List κ → List (κ × Unit) := fun keys => keys.map fun key => (key, ())
  have htable : ∀ names, (table names).map Prod.fst = names :=
    fun names => by simp [table, Function.comp_def]
  have hkeys : ∀ names, keys (ofList (table names)) = names.eraseDups :=
    fun names => by rw [keys_ofList, htable]
  have hnodup : (keys base).Nodup := by
    rw [hbase]
    exact nodup_eraseDups known
  calc keys (merge base update)
      = (keys base ++ keys update).eraseDups := keys_merge_of_nodup hnodup
    _ = keys (merge (ofList (table known)) (ofList (table names))) := by
        rw [keys_merge_of_nodup (nodup_keys_ofList _), hkeys, hkeys, hbase, hupdate]
    _ = (known ++ names).eraseDups := by
        rw [merge_ofList, ofList, ← merge_append, ← ofList, keys_ofList, List.map_append, htable,
          htable]

theorem keys_insert_eraseDups {known : List κ} (hbase : keys base = known.eraseDups) (key : κ)
    (value : α) : keys (insert base key value) = (known ++ [key]).eraseDups := by
  have hmerge : keys (merge base [(key, value)]) = (known ++ [key]).eraseDups :=
    keys_merge hbase rfl
  exact hmerge

end OrderedMap

/-! ### Visits -/

inductive Visit where
  /-- a field at a place of the type, with the kind under which it is kept, if it is -/
  | field (name : String) (type : Option TypeName) (kind : Option FieldKind)
  /-- a fragment, spread or inline, on a place of the type.  If there is a type and a condition,
  it was found out whether the condition is a known model. -/
  | fragment (condition : Option String) (type : Option TypeName) (known : Option Bool)

namespace Visit

def notice? : Visit → Option Notice
  | .field name type none => some (.fieldDropped name type)
  | .fragment (some condition) (some type) (some false) => some (.conditionUnknown condition type)
  | .field _ _ (some _) | .fragment _ _ _ => none

def isField : Visit → Bool
  | .field _ _ _ => true
  | .fragment _ _ _ => false

def isKept : Visit → Bool
  | .field _ _ kind => kind.isSome
  | .fragment _ _ _ => false

theorem filterMap_notice?_cons (visit : Visit) (visits : List Visit) :
    (visit :: visits).filterMap notice? = visit.notice?.toList ++ visits.filterMap notice? := by
  cases h : visit.notice? with
  | none =>
      rw [List.filterMap_cons_none h]
      rfl
  | some notice =>
      rw [List.filterMap_cons_some h]
      rfl

theorem notice?_fragment (condition : Option String) (type : Option TypeName)
    (known : Option Bool) :
    (fragment condition type known).notice? = none ∨ ∃ inner outer,
      (fragment condition type known).notice? = some (.conditionUnknown inner outer) := by
  unfold notice?
  split
  · contradiction
  · exact Or.inr ⟨_, _, rfl⟩
  · exact Or.inl rfl
  · exact Or.inl rfl

/-- All that is reported of visits is reported by walks. -/
theorem filter_notice? (visit : Visit) :
    visit.notice?.toList.filter Notice.ofWalk = visit.notice?.toList := by
  cases visit with
  | field name type kind => cases kind <;> rfl
  | fragment condition type known =>
      rcases notice?_fragment condition type known with h | ⟨inner, outer, h⟩
      · rw [h]
        rfl
      · rw [h]
        rfl

/-- A field is either reported as left out, or kept. -/
theorem countP_isField (visits : List Visit) :
    visits.countP isField =
      (visits.filterMap notice?).countP Notice.isDrop + visits.countP isKept := by
  have hone : ∀ visit : Visit, (if visit.isField then 1 else 0) =
      visit.notice?.toList.countP Notice.isDrop + if visit.isKept then 1 else 0 := by
    intro visit
    cases visit with
    | field name type kind => cases kind <;> rfl
    | fragment condition type known =>
        rcases notice?_fragment condition type known with h | ⟨inner, outer, h⟩
        · rw [h]
          rfl
        · rw [h]
          rfl
  induction visits with
  | nil => rfl
  | cons visit visits ih =>
      rw [filterMap_notice?_cons, List.countP_append, List.countP_cons, List.countP_cons, ih,
        hone visit]
      omega

end Visit

namespace Expansion

/-- The type of the place inside a fragment is found out.  If there is a type around it and a
condition, it depends on whether the condition is a known model. -/
inductive Asks (context : Context) : Option TypeName → Option String → Memory →
    Option TypeName → Option Bool → Memory → Prop where
  | unasked {type : Option TypeName} {condition : Option String} {memory : Memory}
      (h : type = none ∨ condition = none) : Asks context type condition memory type none memory
  | asked {target : Target} {type : TypeName} {condition : String} {memory after : Memory}
      {known : Bool} (htarget : context.options.target = some target)
      (hknown : (Registry.hasType target.source (.text condition)).run memory = (.ok known, after)) :
      Asks context (some type) (some condition) memory
        (some (if known then .text condition else type)) (some known) after

/-- The walk of some selections at a place of a type, from one memory to another: what it comes to
in document order, with the defined fragments and the selections of kept fields where they stand
and with nothing below a field that is left out, and the names of the fields that are kept at that
place. -/
inductive Walks (context : Context) : Option TypeName → FieldFilter → List Selection → Memory →
    List Visit → List String → Memory → Prop where
  | nil {type : Option TypeName} {filter : FieldFilter} {memory : Memory} :
      Walks context type filter [] memory [] [] memory
  | dropped {type : Option TypeName} {filter : FieldFilter} {aliasName : Option String}
      {name : String} {arguments : List Argument} {directives : List Directive}
      {selections : Option (List Selection)} {rest : List Selection} {memory after : Memory}
      {later : List Visit} {names : List String} (hkind : filter.classify name = none)
      (hrest : Walks context type filter rest memory later names after) :
      Walks context type filter (.field aliasName name arguments directives selections :: rest)
        memory (.field name type none :: later) names after
  | leaf {type : Option TypeName} {filter : FieldFilter} {aliasName : Option String}
      {name : String} {kind : FieldKind} {arguments : List Argument} {directives : List Directive}
      {rest : List Selection} {memory after : Memory} {later : List Visit} {names : List String}
      (hkind : filter.classify name = some kind)
      (hrest : Walks context type filter rest memory later names after) :
      Walks context type filter (.field aliasName name arguments directives none :: rest)
        memory (.field name type (some kind) :: later) (name :: names) after
  | branch {type below : Option TypeName} {filter inner : FieldFilter} {aliasName : Option String}
      {name : String} {kind : FieldKind} {arguments : List Argument} {directives : List Directive}
      {selections rest : List Selection} {memory placed opened between after : Memory}
      {inside later : List Visit} {nested names : List String}
      (hkind : filter.classify name = some kind)
      (hbelow : (context.typeBelow type name kind).Returns memory below [] placed)
      (hfilter : (context.filterAt below).Returns placed inner [] opened)
      (hinside : Walks context below inner selections opened inside nested between)
      (hrest : Walks context type filter rest between later names after) :
      Walks context type filter
        (.field aliasName name arguments directives (some selections) :: rest) memory
        (.field name type (some kind) :: inside ++ later) (name :: names) after
  | spread {type within : Option TypeName} {filter inner : FieldFilter} {name : String}
      {fragment : Fragment} {directives : List Directive} {rest : List Selection}
      {known : Option Bool} {memory placed opened between after : Memory}
      {inside later : List Visit} {nested names : List String}
      (hdefined : context.definition? name = some fragment)
      (hasks : Asks context type (some fragment.condition) memory within known placed)
      (hfilter : (context.filterAt within).Returns placed inner [] opened)
      (hinside : Walks context within inner fragment.selections opened inside nested between)
      (hrest : Walks context type filter rest between later names after) :
      Walks context type filter (.spread name directives :: rest) memory
        (.fragment (some fragment.condition) type known :: inside ++ later) (nested ++ names) after
  | undefined {type : Option TypeName} {filter : FieldFilter} {name : String}
      {directives : List Directive} {rest : List Selection} {memory after : Memory}
      {later : List Visit} {names : List String} (hundefined : context.definition? name = none)
      (hrest : Walks context type filter rest memory later names after) :
      Walks context type filter (.spread name directives :: rest) memory later names after
  | inline {type within : Option TypeName} {filter inner : FieldFilter}
      {condition : Option String} {directives : List Directive} {selections rest : List Selection}
      {known : Option Bool} {memory placed opened between after : Memory}
      {inside later : List Visit} {nested names : List String}
      (hasks : Asks context type condition memory within known placed)
      (hfilter : (context.filterAt within).Returns placed inner [] opened)
      (hinside : Walks context within inner selections opened inside nested between)
      (hrest : Walks context type filter rest between later names after) :
      Walks context type filter (.inline condition directives selections :: rest) memory
        (.fragment condition type known :: inside ++ later) (nested ++ names) after

/-- The walk of a whole compilation, from the root once that is known. -/
def WalksFromRoot (context : Context) (selections : List Selection) (memory : Memory)
    (visits : List Visit) (names : List String) (after : Memory) : Prop :=
  ∃ checked filter opened, context.checkRoot.Returns memory () [] checked ∧
    (context.filterAt context.root).Returns checked filter [] opened ∧
    Walks context context.root filter selections opened visits names after

variable {context : Context} {enter : Enter} {type : Option TypeName} {filter : FieldFilter}
  {memory after : Memory} {notices : List Notice}

/-! ### There is one walk -/

theorem Asks.unique {condition : Option String} {within within' : Option TypeName}
    {known known' : Option Bool} {after' : Memory}
    (h : Asks context type condition memory within known after)
    (h' : Asks context type condition memory within' known' after') :
    within = within' ∧ known = known' ∧ after = after' := by
  cases h with
  | unasked h =>
      cases h' with
      | unasked => exact ⟨rfl, rfl, rfl⟩
      | asked => rcases h with h | h <;> cases h
  | asked htarget hknown =>
      cases h' with
      | unasked h => rcases h with h | h <;> cases h
      | asked htarget' hknown' =>
          cases htarget.symm.trans htarget'
          cases hknown.symm.trans hknown'
          exact ⟨rfl, rfl, rfl⟩

theorem Walks.unique {selections : List Selection} {visits visits' : List Visit}
    {names names' : List String} {after' : Memory}
    (h : Walks context type filter selections memory visits names after)
    (h' : Walks context type filter selections memory visits' names' after') :
    visits = visits' ∧ names = names' ∧ after = after' := by
  induction h generalizing visits' names' after' with
  | nil =>
      cases h'
      exact ⟨rfl, rfl, rfl⟩
  | dropped hkind _ ih =>
      cases h' with
      | dropped _ hrest' =>
          obtain ⟨rfl, rfl, rfl⟩ := ih hrest'
          exact ⟨rfl, rfl, rfl⟩
      | leaf hkind' => cases hkind.symm.trans hkind'
      | branch hkind' => cases hkind.symm.trans hkind'
  | leaf hkind _ ih =>
      cases h' with
      | dropped hkind' => cases hkind.symm.trans hkind'
      | leaf hkind' hrest' =>
          cases hkind.symm.trans hkind'
          obtain ⟨rfl, rfl, rfl⟩ := ih hrest'
          exact ⟨rfl, rfl, rfl⟩
  | branch hkind hbelow hfilter _ _ ihInside ih =>
      cases h' with
      | dropped hkind' => cases hkind.symm.trans hkind'
      | branch hkind' hbelow' hfilter' hinside' hrest' =>
          cases hkind.symm.trans hkind'
          obtain ⟨rfl, -, rfl⟩ := hbelow.unique hbelow'
          obtain ⟨rfl, -, rfl⟩ := hfilter.unique hfilter'
          obtain ⟨rfl, rfl, rfl⟩ := ihInside hinside'
          obtain ⟨rfl, rfl, rfl⟩ := ih hrest'
          exact ⟨rfl, rfl, rfl⟩
  | spread hdefined hasks hfilter _ _ ihInside ih =>
      cases h' with
      | spread hdefined' hasks' hfilter' hinside' hrest' =>
          cases hdefined.symm.trans hdefined'
          obtain ⟨rfl, rfl, rfl⟩ := hasks.unique hasks'
          obtain ⟨rfl, -, rfl⟩ := hfilter.unique hfilter'
          obtain ⟨rfl, rfl, rfl⟩ := ihInside hinside'
          obtain ⟨rfl, rfl, rfl⟩ := ih hrest'
          exact ⟨rfl, rfl, rfl⟩
      | undefined hundefined => cases hdefined.symm.trans hundefined
  | undefined hundefined _ ih =>
      cases h' with
      | spread hdefined => cases hundefined.symm.trans hdefined
      | undefined _ hrest' => exact ih hrest'
  | inline hasks hfilter _ _ ihInside ih =>
      cases h' with
      | inline hasks' hfilter' hinside' hrest' =>
          obtain ⟨rfl, rfl, rfl⟩ := hasks.unique hasks'
          obtain ⟨rfl, -, rfl⟩ := hfilter.unique hfilter'
          obtain ⟨rfl, rfl, rfl⟩ := ihInside hinside'
          obtain ⟨rfl, rfl, rfl⟩ := ih hrest'
          exact ⟨rfl, rfl, rfl⟩

theorem WalksFromRoot.unique {selections : List Selection} {visits visits' : List Visit}
    {names names' : List String} {after' : Memory}
    (h : WalksFromRoot context selections memory visits names after)
    (h' : WalksFromRoot context selections memory visits' names' after') :
    visits = visits' ∧ names = names' ∧ after = after' := by
  obtain ⟨checked, filter, opened, hchecked, hfilter, hwalks⟩ := h
  obtain ⟨checked', filter', opened', hchecked', hfilter', hwalks'⟩ := h'
  obtain ⟨-, -, rfl⟩ := hchecked.unique hchecked'
  obtain ⟨rfl, -, rfl⟩ := hfilter.unique hfilter'
  exact hwalks.unique hwalks'

/-! ### What single steps report -/

theorem quiet_of_filterAt (h : (context.filterAt type).Returns memory filter notices after) :
    notices = [] := by
  unfold Context.filterAt at h
  split at h
  · obtain ⟨_, _, _, _, hlookup, hdone, rfl⟩ := Compile.returns_bind.mp h
    obtain ⟨-, rfl⟩ := Compile.returns_ofLookup.mp hlookup
    obtain ⟨-, rfl, -⟩ := Compile.returns_pure.mp hdone
    rfl
  · exact (Compile.returns_pure.mp h).2.1

theorem quiet_of_typeBelow {name : String} {kind : FieldKind} {below : Option TypeName}
    (h : (context.typeBelow type name kind).Returns memory below notices after) :
    notices = [] ∧ Placed context below := by
  unfold Context.typeBelow at h
  split at h
  · rename_i htarget
    refine ⟨(Compile.returns_ofLookup.mp h).2, fun hnone => ?_⟩
    cases htarget.symm.trans hnone
  · obtain ⟨rfl, rfl, -⟩ := Compile.returns_pure.mp h
    exact ⟨rfl, fun _ => rfl⟩

theorem quiet_of_checkRoot {found : Unit}
    (h : context.checkRoot.Returns memory found notices after) : notices = [] := by
  unfold Context.checkRoot at h
  split at h
  · exact (Compile.returns_pure.mp h).2.1
  · obtain ⟨_, _, _, _, hlookup, hdone, rfl⟩ := Compile.returns_bind.mp h
    obtain ⟨-, rfl⟩ := Compile.returns_ofLookup.mp hlookup
    obtain ⟨-, rfl, -⟩ := Compile.returns_pure.mp hdone
    rfl

/-- A type condition is reported if it was asked about and is not known. -/
theorem asks_of_typeWithin {condition : Option String} {within : Option TypeName}
    (hplaced : Placed context type)
    (h : (context.typeWithin type condition).Returns memory within notices after) :
    Placed context within ∧ ∃ known, Asks context type condition memory within known after ∧
      notices = (Visit.fragment condition type known).notice?.toList := by
  have hunasked : (type = none ∨ condition = none) → context.typeWithin type condition = pure type →
      Placed context within ∧ ∃ known, Asks context type condition memory within known after ∧
        notices = (Visit.fragment condition type known).notice?.toList := by
    intro hnone hsame
    rw [hsame] at h
    obtain ⟨rfl, rfl, rfl⟩ := Compile.returns_pure.mp h
    refine ⟨hplaced, none, .unasked hnone, ?_⟩
    cases condition <;> cases within <;> rfl
  unfold Context.typeWithin at h hunasked
  cases htarget : context.options.target with
  | none =>
      rw [htarget] at hunasked
      exact hunasked (Or.inl (hplaced htarget)) rfl
  | some target =>
      cases type with
      | none => exact hunasked (Or.inl rfl) (by rw [htarget])
      | some outer =>
          cases condition with
          | none => exact hunasked (Or.inr rfl) (by rw [htarget])
          | some inner =>
              rw [htarget] at h
              obtain ⟨known, _, between, later, hlookup, hafter, rfl⟩ := Compile.returns_bind.mp h
              obtain ⟨hknown, rfl⟩ := Compile.returns_ofLookup.mp hlookup
              refine ⟨fun hnone => (nomatch htarget.symm.trans hnone), known, ?_⟩
              cases known with
              | true =>
                  obtain ⟨rfl, rfl, rfl⟩ := Compile.returns_pure.mp hafter
                  exact ⟨.asked htarget hknown, rfl⟩
              | false =>
                  obtain ⟨_, _, _, _, hnote, hdone, rfl⟩ := Compile.returns_bind.mp hafter
                  obtain ⟨rfl, rfl⟩ := Compile.returns_note.mp hnote
                  obtain ⟨rfl, rfl, rfl⟩ := Compile.returns_pure.mp hdone
                  exact ⟨.asked htarget hknown, rfl⟩

theorem definition?_of_fragment? {name : String} {found : Option Fragment}
    (h : (context.fragment? name).Returns memory found notices after) :
    context.definition? name = found ∧ notices.filter Notice.ofWalk = [] ∧ after = memory := by
  obtain ⟨hresolved, rfl⟩ := Compile.returns_ofLogged.mp h
  unfold resolveFragment at hresolved
  unfold Context.definition?
  split at hresolved
  · cases hresolved
    exact ⟨by assumption, rfl, rfl⟩
  · split at hresolved
    · cases hresolved
    · cases hresolved
      exact ⟨by assumption, rfl, rfl⟩

theorem quiet_of_forwarded {given : List Argument} {forwarded : OrderedMap String Datum}
    (h : (context.forwarded given).Returns memory forwarded notices after) :
    notices.filter Notice.ofWalk = [] ∧ after = memory := by
  obtain ⟨hforwarded, rfl⟩ := Compile.returns_ofLogged.mp h
  refine ⟨List.filter_eq_nil_iff.mpr fun notice hmem => ?_, rfl⟩
  have hquiet := ofWalk_forwardArguments given context.bindings context.options.strict
    relationArguments notice
  rw [hforwarded] at hquiet
  rw [hquiet hmem]
  exact Bool.false_ne_true

/-! ### What walks report -/

/-- The walk of some selections at a place tells what is reported of them, and which keys their
map has. -/
def Opens (context : Context) (type : Option TypeName) (selections : List Selection)
    (memory : Memory) (map : ProjectionMap) (notices : List Notice) (after : Memory) : Prop :=
  ∃ filter opened visits names, (context.filterAt type).Returns memory filter [] opened ∧
    Walks context type filter selections opened visits names after ∧
    notices.filter Notice.ofWalk = visits.filterMap Visit.notice? ∧
    OrderedMap.keys map = names.eraseDups

/-- What is written of some selections, over any map, is told by their walk. -/
def Retraced (context : Context) (enter : Enter) (selections : List Selection) : Prop :=
  ∀ ⦃type : Option TypeName⦄ ⦃filter : FieldFilter⦄ ⦃memory after : Memory⦄
    ⦃before map : ProjectionMap⦄ ⦃known : List String⦄ ⦃notices : List Notice⦄,
    Placed context type → OrderedMap.keys before = known.eraseDups →
    (writeAll context enter type filter before selections).Returns memory map notices after →
    ∃ visits names, Walks context type filter selections memory visits names after ∧
      notices.filter Notice.ofWalk = visits.filterMap Visit.notice? ∧
      OrderedMap.keys map = (known ++ names).eraseDups

def EntersRetraced (context : Context) (enter : Enter) : Prop :=
  ∀ ⦃name : String⦄ ⦃fragment : Fragment⦄ ⦃type : Option TypeName⦄ ⦃memory after : Memory⦄
    ⦃map : ProjectionMap⦄ ⦃notices : List Notice⦄, Placed context type →
    (enter name fragment type).Returns memory map notices after →
    Opens context type fragment.selections memory map notices after

theorem Retraced.opens {selections : List Selection} (h : Retraced context enter selections)
    (hplaced : Placed context type) {map : ProjectionMap}
    (hreturns : (selectionSet context enter type selections).Returns memory map notices after) :
    Opens context type selections memory map notices after := by
  obtain ⟨filter, _, opened, later, hfilter, hwrites, rfl⟩ := Compile.returns_bind.mp hreturns
  cases quiet_of_filterAt hfilter
  have hbefore : OrderedMap.keys ([] : ProjectionMap) = ([] : List String).eraseDups := rfl
  obtain ⟨visits, names, hwalks, hnotices, hkeys⟩ := h hplaced hbefore hwrites
  exact ⟨filter, opened, visits, names, hfilter, hwalks, hnotices, hkeys⟩

section Steps

variable {before : ProjectionMap} {known : List String} {written : ProjectionMap}
  {selection : Selection}

/-- The first selections are walked, and whatever is walked after them is walked after that. -/
def Precedes (context : Context) (type : Option TypeName) (filter : FieldFilter)
    (selection : Selection) (memory : Memory) (known : List String) (written : ProjectionMap)
    (notices : List Notice) (between : Memory) : Prop :=
  ∃ first nested, notices.filter Notice.ofWalk = first.filterMap Visit.notice? ∧
    OrderedMap.keys written = (known ++ nested).eraseDups ∧
    ∀ {rest : List Selection} {later : List Visit} {names : List String} {after : Memory},
      Walks context type filter rest between later names after →
      Walks context type filter (selection :: rest) memory (first ++ later) (nested ++ names) after

theorem precedes_of_writeOne (henter : EntersRetraced context enter)
    (hnested : Retraced context enter selection.nested) (hplaced : Placed context type)
    (hbefore : OrderedMap.keys before = known.eraseDups)
    (h : (writeOne context enter type filter before selection).Returns memory written notices
      after) :
    Precedes context type filter selection memory known written notices after := by
  cases selection with
  | field aliasName name arguments directives selections =>
      cases hkind : filter.classify name with
      | none =>
          rw [writeOne_dropped before hkind] at h
          obtain ⟨_, _, _, _, hnote, hdone, rfl⟩ := Compile.returns_bind.mp h
          obtain ⟨rfl, rfl⟩ := Compile.returns_note.mp hnote
          obtain ⟨rfl, rfl, rfl⟩ := Compile.returns_pure.mp hdone
          exact ⟨[.field name type none], [], rfl, by rw [List.append_nil, hbefore],
            .dropped hkind⟩
      | some kind =>
          cases selections with
          | none =>
              rw [writeOne_leaf before hkind] at h
              obtain ⟨rfl, rfl, rfl⟩ := Compile.returns_pure.mp h
              exact ⟨[.field name type (some kind)], [name], rfl,
                OrderedMap.keys_insert_eraseDups hbefore name _, .leaf hkind⟩
          | some selections =>
              rw [writeOne_branch before hkind] at h
              obtain ⟨below, _, placed, _, hbelow, hset, rfl⟩ := Compile.returns_bind.mp h
              obtain ⟨rfl, hplacedBelow⟩ := quiet_of_typeBelow hbelow
              obtain ⟨select, _, between, _, hselect, hpass, rfl⟩ := Compile.returns_bind.mp hset
              obtain ⟨forwarded, _, _, _, hforwarded, hdone, rfl⟩ := Compile.returns_bind.mp hpass
              obtain ⟨hquiet, rfl⟩ := quiet_of_forwarded hforwarded
              obtain ⟨rfl, rfl, rfl⟩ := Compile.returns_pure.mp hdone
              obtain ⟨inner, opened, visits, names, hfilter, hwalks, hnotices, -⟩ :=
                hnested.opens hplacedBelow hselect
              refine ⟨.field name type (some kind) :: visits, [name], ?_,
                OrderedMap.keys_insert_eraseDups hbefore name _,
                .branch hkind hbelow hfilter hwalks⟩
              simp only [List.nil_append, List.append_nil, List.filter_append, hquiet, hnotices]
              rfl
  | spread name directives =>
      rw [writeOne_spread] at h
      obtain ⟨found, _, _, _, hfound, hspread, rfl⟩ := Compile.returns_bind.mp h
      obtain ⟨hdefinition, hquiet, rfl⟩ := definition?_of_fragment? hfound
      cases found with
      | none =>
          obtain ⟨rfl, rfl, rfl⟩ := Compile.returns_pure.mp hspread
          refine ⟨[], [], ?_, by rw [List.append_nil, hbefore], .undefined hdefinition⟩
          rw [List.append_nil, hquiet]
          rfl
      | some fragment =>
          obtain ⟨within, _, placed, _, hwithin, henters, rfl⟩ := Compile.returns_bind.mp hspread
          obtain ⟨hplacedWithin, asked, hasks, rfl⟩ := asks_of_typeWithin hplaced hwithin
          obtain ⟨entered, _, _, _, hentered, hdone, rfl⟩ := Compile.returns_bind.mp henters
          obtain ⟨rfl, rfl, rfl⟩ := Compile.returns_pure.mp hdone
          obtain ⟨inner, opened, visits, names, hfilter, hwalks, hnotices, hkeys⟩ :=
            henter hplacedWithin hentered
          refine ⟨.fragment (some fragment.condition) type asked :: visits, names, ?_,
            OrderedMap.keys_merge hbefore hkeys, .spread hdefinition hasks hfilter hwalks⟩
          simp only [List.append_nil, List.filter_append, hquiet, List.nil_append, hnotices,
            Visit.filter_notice?, Visit.filterMap_notice?_cons]
  | inline condition directives selections =>
      rw [writeOne_inline] at h
      obtain ⟨within, _, placed, _, hwithin, hset, rfl⟩ := Compile.returns_bind.mp h
      obtain ⟨hplacedWithin, asked, hasks, rfl⟩ := asks_of_typeWithin hplaced hwithin
      obtain ⟨select, _, _, _, hselect, hdone, rfl⟩ := Compile.returns_bind.mp hset
      obtain ⟨rfl, rfl, rfl⟩ := Compile.returns_pure.mp hdone
      obtain ⟨inner, opened, visits, names, hfilter, hwalks, hnotices, hkeys⟩ :=
        hnested.opens hplacedWithin hselect
      refine ⟨.fragment condition type asked :: visits, names, ?_,
        OrderedMap.keys_merge hbefore hkeys, .inline hasks hfilter hwalks⟩
      simp only [List.append_nil, List.filter_append, hnotices, Visit.filter_notice?,
        Visit.filterMap_notice?_cons]
  | other name =>
      rw [writeOne_other] at h
      exact absurd h Compile.not_returns_stop

end Steps

theorem retraced (henter : EntersRetraced context enter) (selections : List Selection) :
    Retraced context enter selections := by
  induction selections using Selection.listInduction with
  | nil =>
      intro type filter memory after before map known notices hplaced hbefore h
      rw [writeAll_nil] at h
      obtain ⟨rfl, rfl, rfl⟩ := Compile.returns_pure.mp h
      exact ⟨[], [], .nil, rfl, by rw [List.append_nil, hbefore]⟩
  | cons selection rest ihNested ih =>
      intro type filter memory after before map known notices hplaced hbefore h
      rw [writeAll_cons] at h
      obtain ⟨written, earlier, between, later, hone, hrest, rfl⟩ := Compile.returns_bind.mp h
      obtain ⟨first, nested, hfirst, hwritten, hprecedes⟩ :=
        precedes_of_writeOne henter ihNested hplaced hbefore hone
      obtain ⟨visits, names, hwalks, hnotices, hkeys⟩ := ih hplaced hwritten hrest
      refine ⟨first ++ visits, nested ++ names, hprecedes hwalks, ?_, ?_⟩
      · rw [List.filter_append, List.filterMap_append, hfirst, hnotices]
      · rw [hkeys, List.append_assoc]

theorem entersRetraced (context : Context) (depth : Nat) (active : List (String × Option Key)) :
    EntersRetraced context (enterWithin context depth active) := by
  induction depth generalizing active with
  | zero =>
      intro name fragment type memory after map notices _ h
      exact absurd h Compile.not_returns_stop
  | succ depth ih =>
      intro name fragment type memory after map notices hplaced h
      rw [enterWithin_succ] at h
      split at h
      · exact absurd h Compile.not_returns_stop
      · exact (retraced (ih _) fragment.selections).opens hplaced h

/-- Whatever is left out is reported.  There is one walk of a compilation that succeeds, and what
the walk reports is what it comes to and leaves out, in order: a notice for each field that its
filter skips, and one for each type condition on a known type that is no known model.  All other
fields that it comes to are kept, and those that it comes to at the root are the keys of the
projection. -/
theorem compileSelections_reports {selections : Option (List Selection)} {map : ProjectionMap}
    (h : (compileSelections context selections memory).result = .ok map) :
    let outcome := compileSelections context selections memory
    ∃ visits names,
      WalksFromRoot context (selections.getD []) memory visits names outcome.memory ∧
      (∀ visits' names' after', WalksFromRoot context (selections.getD []) memory visits' names'
        after' → visits' = visits ∧ names' = names ∧ after' = outcome.memory) ∧
      outcome.notices.filter Notice.ofWalk = visits.filterMap Visit.notice? ∧
      visits.countP Visit.isField =
        outcome.notices.countP Notice.isDrop + visits.countP Visit.isKept ∧
      OrderedMap.keys map = names.eraseDups := by
  intro outcome
  have hreturns := Compile.returns_of_ok h
  rw [compileSelections, compileEntering] at hreturns
  obtain ⟨_, _, checked, _, hchecked, hstart, hnotices⟩ := Compile.returns_bind.mp hreturns
  cases quiet_of_checkRoot hchecked
  obtain ⟨_, _, _, _, hremembered, hset, rfl⟩ := Compile.returns_bind.mp hstart
  cases hremembered
  obtain ⟨filter, opened, visits, names, hfilter, hwalks, hreported, hkeys⟩ :=
    (retraced (entersRetraced context _ []) (selections.getD [])).opens placed_root hset
  have hroot : WalksFromRoot context (selections.getD []) memory visits names outcome.memory :=
    ⟨checked, filter, opened, hchecked, hfilter, hwalks⟩
  have hsame : outcome.notices.filter Notice.ofWalk = visits.filterMap Visit.notice? := by
    rw [← hreported]
    exact congrArg (List.filter Notice.ofWalk) hnotices
  refine ⟨visits, names, hroot, fun visits' names' after' h' => h'.unique hroot, hsame, ?_, hkeys⟩
  rw [← Notice.countP_isDrop, hsame]
  exact Visit.countP_isField visits

/-- A fragment on what is no model, spread on a person and on posts. -/
def amongNodes : Context :=
  aboutPeople [("Titled", "Node", [plainField "title" none, plainField "id" none])]

/-- A person has no title and no age, and posts have no name. -/
def titledTwice : List Selection :=
  [.spread "Titled" [],
    plainField "age" (some [.spread "Titled" [], plainField "years" none]),
    plainField "posts" (some [.spread "Titled" [], plainField "name" none])]

theorem result_titledTwice :
    (compileSelections amongNodes (some titledTwice) Memory.empty).result =
      .ok [("id", .leaf), ("posts", .relation [("title", .leaf), ("id", .leaf)] [])] := by
  rfl

/-- The fragment is entered twice, and reported with another type each time.  Below what is left
out there is no walk. -/
theorem reports_titledTwice :
    (compileSelections amongNodes (some titledTwice) Memory.empty).result =
        .ok [("id", .leaf), ("posts", .relation [("title", .leaf), ("id", .leaf)] [])] ∧
      ∃ visits names,
        WalksFromRoot amongNodes titledTwice Memory.empty visits names
          (compileSelections amongNodes (some titledTwice) Memory.empty).memory ∧
        visits.filterMap Visit.notice? =
          [.conditionUnknown "Node" (.text "Person"), .fieldDropped "title" (some (.text "Person")),
            .fieldDropped "age" (some (.text "Person")), .conditionUnknown "Node" (.text "Post"),
            .fieldDropped "name" (some (.text "Post"))] ∧
        ["id", "posts"] = names.eraseDups := by
  obtain ⟨visits, names, hwalks, -, hnotices, -, hkeys⟩ :=
    compileSelections_reports result_titledTwice
  exact ⟨result_titledTwice, visits, names, hwalks, hnotices.symm, hkeys⟩

end Expansion

end QueryProjection
